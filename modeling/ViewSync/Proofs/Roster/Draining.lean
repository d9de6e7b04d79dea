import ViewSync.Roster.Queue
import ViewSync.Proofs.Pass.Rendering
import ViewSync.Proofs.Roster.Arena

/-!
# Invariants of draining the queue

An invariant of rosters and former trees is carried through a pass when it is closed under edits and
under the few things that the loop itself does. While a component is being rendered its record is
away; the invariant is then stated of the roster with the record in its place, and told which
component it is.
-/

namespace ViewSync

mutual

theorem Template.makes_true : ∀ t : Template, t.Makes fun _ => True
  | .text _ => trivial
  | .hole _ h rest => ⟨h.makes_true, rest.makes_true⟩

theorem Hole.makes_true : ∀ h : Hole, h.Makes fun _ => True
  | .value .. => trivial
  | .choice _ _ branches => branches.makes_true
  | .loop _ _ _ body => ⟨fun _ _ _ _ _ _ => trivial, body.makes_true⟩
  | .stream _ _ body => body.makes_true
  | .component .. => fun _ _ _ _ _ _ => trivial

theorem Branches.makes_true : ∀ b : Branches, b.Makes fun _ => True
  | .none => trivial
  | .more t rest => ⟨t.makes_true, rest.makes_true⟩

end

theorem Scope.all_true (s : Scope) : s.All fun _ => True :=
  ⟨fun _ _ => trivial, fun _ _ _ => trivial⟩

/-- What streams have for the client is made of values with a property. -/
def Pass.Offers (Good : Value → Prop) (p : Pass) : Prop :=
  ∀ name f, p.flushes.get? name = some f → ∀ i ∈ f.inserts, Good i.item

theorem Pass.Offers.erase {Good : Value → Prop} {p : Pass} (h : p.Offers Good) (name : String) :
    Pass.Offers Good { p with flushes := p.flushes.erase name } := by
  intro k f hf
  rw [Keyed.get?_erase] at hf
  split at hf
  · cases hf
  · exact h k f hf

namespace Roster

section Closed

variable {kinds : Kinds} {Good : Value → Prop} {I : Roster → Prop}

/-- What every edit of a roster keeps, everything that a hole does keeps. -/
theorem closed_edit (hgood : ∀ s, Good (.str s)) (hI : ∀ r r', I r → Edit kinds Good r r' → I r') :
    Pass.Closed kinds Good fun p => p.Offers Good ∧ I p.roster where
  refer _ id kind _ owner hp hprops := ⟨hp.1, hI _ _ hp.2 (edit_refer _ id kind owner hprops)⟩
  follow _ t hp := ⟨hp.1, hI _ _ hp.2 (edit_follow _ t)⟩
  draw _ e hp := ⟨hp.1, hI _ _ hp.2 (edit_noteDrawn _ e)⟩
  take _ name hp := ⟨hp.1.erase name, hp.2⟩
  note _ _ hp := hp
  items _ name f hp hf := hp.1 name f hf
  keys := hgood

/-- It does so also while a record is away, of the roster with the record in its place. -/
theorem closed_edit_away (hgood : ∀ s, Good (.str s))
    (hI : ∀ r r', I r → Edit kinds Good r r' → I r') (h : Handle) (c : Component) :
    Pass.Closed kinds Good fun p => p.Offers Good ∧ Away p.roster h ∧ I (p.roster.put h c) := by
  have behind {r r' : Roster} (he : Edit kinds Good r r') (hr : Away r h ∧ I (r.put h c)) :
      Away r' h ∧ I (r'.put h c) := by
    obtain ⟨hedit, haway⟩ := he.behind hr.1 c
    exact ⟨haway, hI _ _ hr.2 hedit⟩
  refine ⟨?_, ?_, ?_, ?_, ?_, ?_, hgood⟩
  · intro p id kind props owner hp hprops
    exact ⟨hp.1, behind (edit_refer _ id kind owner hprops) hp.2⟩
  · intro p t hp
    exact ⟨hp.1, behind (edit_follow _ t) hp.2⟩
  · intro p e hp
    exact ⟨hp.1, behind (edit_noteDrawn _ e) hp.2⟩
  · intro p name hp
    exact ⟨hp.1.erase name, hp.2⟩
  · intro p e hp
    exact hp
  · intro p name f hp hf
    exact hp.1 name f hf

end Closed

/-! ## Working off the queue -/

theorem drain_nil (host : Host) {p : Pass} (hq : p.roster.queue = []) (fuel : Nat)
    (former : FormerTrees) : drain host fuel p former = some (.ok (), former, p) := by
  cases fuel <;> simp [drain, hq]

theorem drain_cons (host : Host) {p p' : Pass} {h : Handle} {queue : List Handle}
    {former former' : FormerTrees} {result : Except Error Unit} (hq : p.roster.queue = h :: queue)
    (hone : renderOne host { p with roster := { p.roster with queue } } h former =
      (result, former', p')) (fuel : Nat) :
    drain host (fuel + 1) p former =
      match result with
      | .ok () => drain host fuel p' former'
      | .error e => some (.error e, former', p') := by
  conv => lhs; rw [drain.eq_def]
  cases result <;> simp only [hq, hone]

/-- **What rendering the next component keeps holds when the queue is worked off**, and if the pass
is not broken off nothing is left in it. `P` is told how the pass has gone so far. -/
theorem drain_keeps {host : Host} {P : Except Error Unit → Pass → FormerTrees → Prop}
    (hstep : ∀ {p p' : Pass} {former former' : FormerTrees} {h : Handle} {queue : List Handle}
      {result : Except Error Unit}, P (.ok ()) p former → p.roster.queue = h :: queue →
      renderOne host { p with roster := { p.roster with queue } } h former =
        (result, former', p') → P result p' former')
    {fuel : Nat} {p p' : Pass} {former former' : FormerTrees} {result : Except Error Unit}
    (hp : P (.ok ()) p former) (hd : drain host fuel p former = some (result, former', p')) :
    P result p' former' ∧ (result = .ok () → p'.roster.queue = []) := by
  induction fuel generalizing p former with
  | zero =>
      cases hq : p.roster.queue with
      | nil =>
          rw [drain_nil host hq] at hd
          obtain ⟨rfl, rfl, rfl⟩ := Option.some.inj hd
          exact ⟨hp, fun _ => hq⟩
      | cons h queue =>
          unfold drain at hd
          rw [hq] at hd
          cases hd
  | succ fuel ih =>
      cases hq : p.roster.queue with
      | nil =>
          rw [drain_nil host hq] at hd
          obtain ⟨rfl, rfl, rfl⟩ := Option.some.inj hd
          exact ⟨hp, fun _ => hq⟩
      | cons h queue =>
          rcases hone : renderOne host { p with roster := { p.roster with queue } } h former with
            ⟨result₁, former₁, p₁⟩
          rw [drain_cons host hq hone] at hd
          have hnext := hstep hp hq hone
          cases result₁ with
          | ok _ => exact ih hnext hd
          | error e =>
              -- a failure that comes this far ends the draining
              obtain ⟨rfl, rfl, rfl⟩ := Option.some.inj hd
              exact ⟨hnext, nofun⟩

/-- An invariant that draining keeps. Its first argument is the component being rendered, and
`Rendered` is what is known of a tree when the rendering of a component yields it. -/
structure Steady (host : Host) (Good : Value → Prop) (Rendered : Component → Tree → Prop)
    (Inv : Option Handle → Roster → FormerTrees → Prop) : Prop where
  /-- Strings are among the values. -/
  good_str : ∀ s, Good (.str s)
  /-- The invariant has records, ids and handles go together. -/
  arena : ∀ {cur r former}, Inv cur r former → r.Arena
  /-- What rendering does to a roster keeps it. -/
  edit : ∀ {cur r r' former}, Inv cur r former → Edit host.kinds Good r r' → Inv cur r' former
  /-- What has been retired, or is not there, is not rendered. -/
  skip : ∀ {r former h queue}, Inv none r former → r.queue = h :: queue →
    (∀ c, r.get? h = some c → c.retired = true) → Inv none { r with queue } former
  /-- It is kept when a component is taken from the queue, to be rendered. -/
  start : ∀ {r former h queue c}, Inv none r former → r.queue = h :: queue → r.get? h = some c →
    c.retired = false → Inv (some h) ({ r with queue }.keepState c) former
  /-- The rendering of a component yields trees of which `Rendered` is known. -/
  yields : ∀ {r former h c} {P : Pass → Prop}, Inv (some h) r former → r.get? h = some c →
    Pass.Closed host.kinds Good P →
    Pass.Yields P (Pass.template host (Scope.ofAssigns c.assigns)
      ((host.kinds c.kind.key).render c.assigns) c.tree) (Rendered c)
  /-- It is kept when the component gets such a tree. -/
  rendered : ∀ {r former h c tree}, Inv (some h) r former → r.get? h = some c →
    c.retired = false → Rendered c tree →
    Inv none (r.put h { c with tree := some tree, assigns := c.assigns.settled })
      (former.insertNew h c.tree)
  /-- It is kept when the rendering fails. -/
  failed : ∀ {r former h c}, Inv (some h) r former → r.get? h = some c → c.retired = false →
    Inv none (if c.tree.isNone then { r with stillborn := r.stillborn.insert h } else r) former

namespace Steady

variable {host : Host} {Good : Value → Prop} {Rendered : Component → Tree → Prop}
variable {Inv : Option Handle → Roster → FormerTrees → Prop}

/-- A template may be rendered. -/
theorem closed (hs : Steady host Good Rendered Inv) (cur : Option Handle) (former : FormerTrees) :
    Pass.Closed host.kinds Good fun p => p.Offers Good ∧ Inv cur p.roster former :=
  closed_edit hs.good_str fun _ _ => hs.edit

/-- A template may be rendered while a record is away. -/
theorem closed_away (hs : Steady host Good Rendered Inv) (h : Handle) (c : Component)
    (former : FormerTrees) :
    Pass.Closed host.kinds Good fun p =>
      p.Offers Good ∧ Away p.roster h ∧ Inv (some h) (p.roster.put h c) former :=
  closed_edit_away hs.good_str (fun _ _ => hs.edit) h c

/-- Putting a record back, rendered or failed. -/
theorem settle (hs : Steady host Good Rendered Inv) {p : Pass} {h : Handle} {c : Component}
    {former : FormerTrees} (hoffers : p.Offers Good) (haway : Away p.roster h)
    (hinv : Inv (some h) (p.roster.put h c) former) (hret : c.retired = false)
    {result : Except Error Tree} (hres : ∀ t, result = .ok t → Rendered c t) :
    let after := settle p h c former result
    after.2.2.Offers Good ∧ (∃ cur, Inv cur after.2.2.roster after.2.1) ∧
      (after.1 = .ok () → Inv none after.2.2.roster after.2.1) := by
  have hlt : h < p.roster.slots.length := (List.getElem?_eq_some_iff.mp haway.1).1
  have hget : (p.roster.put h c).get? h = some c := by rw [get?_put hlt, if_pos rfl]
  cases result with
  | ok t =>
      have hnext := hs.rendered hinv hget hret (hres t rfl)
      rw [put_put] at hnext
      exact ⟨hoffers, ⟨none, hnext⟩, fun _ => hnext⟩
  | error e =>
      simp only [Roster.settle]
      split
      · exact ⟨hoffers, ⟨some h, hinv⟩, fun hok => by cases hok⟩
      · have hnext := hs.failed hinv hget hret
        have hput : (if c.tree.isNone
              then { p.roster.put h c with stillborn := (p.roster.put h c).stillborn.insert h }
              else p.roster.put h c) =
            (if c.tree.isNone then { p.roster with stillborn := p.roster.stillborn.insert h }
              else p.roster).put h c := by
          split <;> rfl
        rw [hput] at hnext
        exact ⟨hoffers, ⟨none, hnext⟩, fun _ => hnext⟩

/-- Rendering the next component keeps the invariant. -/
theorem renderOne (hs : Steady host Good Rendered Inv) {p : Pass} {h : Handle}
    {queue : List Handle} (former : FormerTrees) (hoffers : p.Offers Good)
    (hinv : Inv none p.roster former) (hq : p.roster.queue = h :: queue) :
    let after := renderOne host { p with roster := { p.roster with queue } } h former
    after.2.2.Offers Good ∧ (∃ cur, Inv cur after.2.2.roster after.2.1) ∧
      (after.1 = .ok () → Inv none after.2.2.roster after.2.1) := by
  unfold Roster.renderOne
  have hget : get? { p.roster with queue } h = p.roster.get? h := rfl
  dsimp only
  rw [hget]
  cases hc : p.roster.get? h with
  | none =>
      have hskip := hs.skip hinv hq fun c hc' => by rw [hc] at hc'; cases hc'
      exact ⟨hoffers, ⟨none, hskip⟩, fun _ => hskip⟩
  | some c =>
      dsimp only
      split
      · next hret =>
          have hskip := hs.skip hinv hq fun c' hc' => by
            rw [hc] at hc'
            obtain rfl := Option.some.inj hc'
            exact hret
          exact ⟨hoffers, ⟨none, hskip⟩, fun _ => hskip⟩
      · next hret =>
          have hret : c.retired = false := by simpa using hret
          have hstart := hs.start hinv hq hc hret
          generalize hr : ({ p.roster with queue } : Roster).keepState c = r at hstart
          have hcr : r.get? h = some c := by rw [← hr]; exact hc
          -- while it is rendered its slot is empty, and the invariant is of the roster with it back
          have haway : Away (r.vacate h) h := by
            refine ⟨?_, (hs.arena hstart).not_spare hcr⟩
            change (r.slots.set h none)[h]? = some none
            rw [List.getElem?_set_self (lt_of_get? hcr)]
          have hback : (r.vacate h).put h c = r := by rw [put_vacate, put_self hcr]
          have hyields := hs.yields hstart hcr (hs.closed_away h c former)
            { p with roster := r.vacate h } ⟨hoffers, haway, by rw [hback]; exact hstart⟩
          rw [← hr] at hyields ⊢
          obtain ⟨⟨hoffers', haway', hinv'⟩, hres⟩ := hyields
          exact hs.settle hoffers' haway' hinv' hret hres

/-- **Draining keeps the invariant.** -/
theorem drain (hs : Steady host Good Rendered Inv) {fuel : Nat} {p p' : Pass}
    {former former' : FormerTrees} {result : Except Error Unit} (hoffers : p.Offers Good)
    (hinv : Inv none p.roster former)
    (hd : drain host fuel p former = some (result, former', p')) :
    (∃ cur, Inv cur p'.roster former') ∧
      (result = .ok () → Inv none p'.roster former' ∧ p'.roster.queue = []) := by
  obtain ⟨⟨-, hany, hok⟩, hempty⟩ := drain_keeps
    (P := fun result p former => p.Offers Good ∧ (∃ cur, Inv cur p.roster former) ∧
      (result = .ok () → Inv none p.roster former))
    (fun hp hq hone => by
      have hnext := hs.renderOne _ hp.1 (hp.2.2 rfl) hq
      rwa [hone] at hnext)
    ⟨hoffers, ⟨none, hinv⟩, fun _ => hinv⟩ hd
  exact ⟨hany, fun hres => ⟨hok hres, hempty hres⟩⟩

end Steady

/-- Rendering the queue goes well when draining does, and comparing after it. -/
theorem renderQueue_ok {host : Host} {fuel : Nat} {p p' : Pass} {ps : Keyed Handle Patch}
    (h : renderQueue host fuel p = some (.ok ps, p')) :
    ∃ former p₁ r, Roster.drain host fuel p [] = some (.ok (), former, p₁) ∧
      p₁.roster.dropStillborn.patches former = (.ok ps, r) ∧
      p' = { p₁ with roster := r.keepTrees former } := by
  unfold renderQueue at h
  split at h
  · cases h
  · cases h
  · next former p₁ hd =>
      generalize hpatches : p₁.roster.dropStillborn.patches former = result at h
      obtain ⟨_, r⟩ := result
      obtain ⟨rfl, rfl⟩ := Prod.mk.inj (Option.some.inj h)
      exact ⟨former, p₁, r, hd, hpatches, rfl⟩

end Roster

end ViewSync
