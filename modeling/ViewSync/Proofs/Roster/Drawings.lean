import ViewSync.Proofs.Pass.Course
import ViewSync.Proofs.Roster.Growth
import ViewSync.Proofs.Roster.Redrawing

/-!
# What a pass draws

While the queue is drained components are rendered one after the other, some of them more than once.
The list of these drawings, each with the streams that it took, tells which tree a component has in
the end: the one that it was rendered to last, or the one from before the pass.
-/

namespace ViewSync.Roster

open ViewSync.Pass

/-- One rendering of a component. -/
structure Drawing where
  /-- The component. -/
  handle : Handle
  /-- Its tree, or the failure. -/
  result : Except Error Tree
  /-- The streams whose flush it took. -/
  taken : List String

/-- Rendering a component whose turn it is: what it comes to, and the pass afterwards, with the slot
of the component still empty. -/
def outcomeOf (host : Host) (p : Pass) (h : Handle) (c : Component) : Except Error Tree × Pass :=
  (Pass.template host (Scope.ofAssigns c.assigns) ((host.kinds c.kind.key).render c.assigns)
    c.tree).run { p with roster := (p.roster.keepState c).vacate h }

/-- The streams whose flush was taken between two states of a pass. -/
def takenBetween (p q : Pass) : List String :=
  (p.flushes.map Prod.fst).filter fun name => !q.flushes.has name

/-- The rendering of a component whose turn it is, unless there is nothing to render. -/
def drawing? (host : Host) (p : Pass) (h : Handle) : Option Drawing :=
  match p.roster.get? h with
  | none => none
  | some c =>
    if c.retired then none
    else some ⟨h, (outcomeOf host p h c).1, takenBetween p (outcomeOf host p h c).2⟩

/-- The drawings of a pass that drains its queue, in order. -/
def drawings (host : Host) : Nat → Pass → List Drawing
  | 0, _ => []
  | fuel + 1, p =>
    match p.roster.queue with
    | [] => []
    | h :: queue =>
      let p := { p with roster := { p.roster with queue } }
      (drawing? host p h).toList ++ drawings host fuel (renderOne host p h []).2.2

/-- The tree of the last drawing of a component that went well. -/
def lastDrawn (ds : List Drawing) (h : Handle) : Option Tree :=
  ds.reverse.findSome? fun d => if d.handle = h then d.result.toOption else none

/-! ## One component -/

variable {host : Host} {p q : Pass} {h : Handle} {c : Component} {former : FormerTrees}
variable {result : Except Error Tree}

theorem retired_or_live (r : Roster) (h : Handle) :
    (∀ c, r.get? h = some c → c.retired = true) ∨ ∃ c, r.get? h = some c ∧ c.retired = false := by
  cases hc : r.get? h with
  | none => exact .inl fun _ h => by cases h
  | some c =>
      cases hret : c.retired with
      | false => exact .inr ⟨c, rfl, hret⟩
      | true =>
          left
          rintro _ ⟨⟩
          exact hret

variable (host former) in
theorem renderOne_of_retired (hret : ∀ c, p.roster.get? h = some c → c.retired = true) :
    renderOne host p h former = (.ok (), former, p) ∧ drawing? host p h = none := by
  unfold renderOne drawing?
  cases hc : p.roster.get? h with
  | none => exact ⟨rfl, rfl⟩
  | some c =>
      dsimp only
      rw [if_pos (hret c hc), if_pos (hret c hc)]
      exact ⟨rfl, rfl⟩

variable (host former) in
theorem renderOne_of_live (hc : p.roster.get? h = some c) (hlive : c.retired = false) :
    renderOne host p h former =
        settle (outcomeOf host p h c).2 h c former (outcomeOf host p h c).1 ∧
      drawing? host p h =
        some ⟨h, (outcomeOf host p h c).1, takenBetween p (outcomeOf host p h c).2⟩ := by
  unfold renderOne drawing?
  rw [hc]
  dsimp only
  rw [hlive]
  exact ⟨rfl, rfl⟩

theorem settle_pass (former : FormerTrees) :
    (settle q h c former result).2.2 = (settle q h c [] result).2.2 := by
  unfold settle
  cases result with
  | ok t => rfl
  | error e =>
      dsimp only
      split <;> rfl

/-- What becomes of the pass does not depend on the former trees. -/
theorem renderOne_pass (former : FormerTrees) :
    (renderOne host p h former).2.2 = (renderOne host p h []).2.2 := by
  rcases retired_or_live p.roster h with hret | ⟨c, hc, hlive⟩
  · rw [(renderOne_of_retired host _ hret).1, (renderOne_of_retired host _ hret).1]
  · rw [(renderOne_of_live host _ hc hlive).1, settle_pass, (renderOne_of_live host _ hc hlive).1]

/-- A failure that is not fatal leaves the tree alone. -/
theorem settle_error {e : Error} (he : e.isFatal = false) :
    settle q h c former (.error e) = (.ok (), former,
      { q with
        roster := (if c.tree.isNone then { q.roster with stillborn := q.roster.stillborn.insert h }
          else q.roster).put h c
        errors := q.errors ++ [e] }) := by
  simp only [settle, he]
  rfl

/-- Apart from records, settling adds to the stillborn and to the failures. -/
theorem settle_rest (q : Pass) (h : Handle) (c : Component) (former : FormerTrees)
    (result : Except Error Tree) :
    (settle q h c former result).2.2.flushes = q.flushes ∧
      ∃ slots stillborn, (settle q h c former result).2.2.roster =
          { q.roster with slots, stillborn } ∧
        ∀ k ∈ stillborn, k ∈ q.roster.stillborn ∨
          (k = h ∧ c.tree = none ∧ result.toOption = none) := by
  cases result with
  | ok t => exact ⟨rfl, _, q.roster.stillborn, rfl, fun _ hk => .inl hk⟩
  | error e =>
      unfold settle
      dsimp only
      split
      · exact ⟨rfl, _, q.roster.stillborn, rfl, fun _ hk => .inl hk⟩
      · refine ⟨rfl, ?_⟩
        split
        · next hnone =>
            refine ⟨_, q.roster.stillborn.insert h, rfl, fun k hk => ?_⟩
            refine (KeySet.mem_insert.mp hk).symm.imp_right fun heq => ⟨heq, ?_, rfl⟩
            exact Option.isNone_iff_eq_none.mp hnone
        · exact ⟨_, q.roster.stillborn, rfl, fun _ hk => .inl hk⟩

theorem settle_ok_cases (hok : (settle q h c former result).1 = .ok ()) :
    (∃ t, result = .ok t) ∨ ∃ e, result = .error e ∧ e.isFatal = false := by
  cases result with
  | ok t => exact .inl ⟨t, rfl⟩
  | error e =>
      refine .inr ⟨e, rfl, ?_⟩
      unfold settle at hok
      cases he : e.isFatal with
      | false => rfl
      | true =>
          simp only [he] at hok
          cases hok

/-! ## One drawing after the other -/

/-- The pass once the next component was taken from the queue, and its record out of its slot. -/
def begun (p : Pass) (h : Handle) (c : Component) : Pass :=
  { p with roster := ({ p.roster with queue := p.roster.queue.tail }.keepState c).vacate h }

/-- Only the record that was taken out is away. -/
theorem get?_begun (p : Pass) (h : Handle) (c : Component) (k : Handle) :
    (begun p h c).roster.get? k = if k = h then none else p.roster.get? k :=
  get?_vacate _ h k

theorem get?_begun_of_ne {p : Pass} {h k : Handle} {c : Component} (hk : k ≠ h) :
    (begun p h c).roster.get? k = p.roster.get? k :=
  (get?_begun p h c k).trans (if_neg hk)

/-- A record that is still there is another one, and as it was. -/
theorem of_get?_begun {p : Pass} {h k : Handle} {c d : Component}
    (hd : (begun p h c).roster.get? k = some d) : k ≠ h ∧ p.roster.get? k = some d := by
  rw [get?_begun] at hd
  split at hd
  · cases hd
  · next hne => exact ⟨hne, hd⟩

theorem tree?_begun_of_ne {p : Pass} {h k : Handle} {c : Component} (hk : k ≠ h) :
    (begun p h c).roster.tree? k = p.roster.tree? k := by
  rw [tree?, tree?, get?_begun_of_ne hk]

theorem of_tree?_begun {p : Pass} {h k : Handle} {c : Component} {t : Tree}
    (ht : (begun p h c).roster.tree? k = some t) : k ≠ h ∧ p.roster.tree? k = some t := by
  obtain ⟨d, hd, htree⟩ := Option.bind_eq_some_iff.mp ht
  obtain ⟨hne, hd⟩ := of_get?_begun hd
  exact ⟨hne, Option.bind_eq_some_iff.mpr ⟨d, hd, htree⟩⟩

theorem queue_begun {p : Pass} {h : Handle} {queue : List Handle} (c : Component)
    (hq : p.roster.queue = h :: queue) : (begun p h c).roster.queue = queue := by
  change p.roster.queue.tail = queue
  rw [hq, List.tail_cons]

/-- The component that is next is rendered, and no failure of it ends the pass. -/
structure Draws (host : Host) (p : Pass) (h : Handle) (c : Component) (rs : Refs)
    (fs : List (String × Stream.Flush)) (q : Pass) (result : Except Error Tree) : Prop where
  /-- The component is next in the queue. -/
  next : p.roster.queue.head? = some h
  /-- It has a record. -/
  record : p.roster.get? h = some c
  /-- It is live. -/
  live : c.retired = false
  /-- Its template is rendered, with this result. -/
  run : (Pass.template host (Scope.ofAssigns c.assigns) ((host.kinds c.kind.key).render c.assigns)
    c.tree).run (begun p h c) = (result, q)
  /-- Rendering takes this course. -/
  course : Course host.kinds (begun p h c) rs fs q
  /-- A tree has what was referred to and taken. -/
  tells : ∀ t, result = .ok t → Tells t.refs t.edits rs fs
  /-- A failure is one that the pass recovers from. -/
  recovers : ∀ e, result = .error e → e.isFatal = false

/-- **What every drawing keeps holds at the end of a drain.** `P` is told the drawings so far. -/
theorem drain_draws {P : List Drawing → Pass → FormerTrees → Prop}
    (hstep : ∀ {ds : List Drawing} {p p' : Pass} {former former' : FormerTrees} {h : Handle}
      {queue : List Handle}, P ds p former → p.roster.queue = h :: queue →
      renderOne host { p with roster := { p.roster with queue } } h former = (.ok (), former', p') →
      P (ds ++ (drawing? host { p with roster := { p.roster with queue } } h).toList) p' former')
    {ds : List Drawing} {p' : Pass} {former' : FormerTrees} {fuel : Nat} (hp : P ds p former)
    (hd : drain host fuel p former = some (.ok (), former', p')) :
    P (ds ++ drawings host fuel p) p' former' ∧ p'.roster.queue = [] := by
  induction fuel generalizing p former ds with
  | zero =>
      cases hq : p.roster.queue with
      | nil =>
          rw [drain_nil host hq] at hd
          obtain ⟨-, rfl, rfl⟩ := Option.some.inj hd
          rw [drawings, List.append_nil]
          exact ⟨hp, hq⟩
      | cons h queue =>
          unfold drain at hd
          rw [hq] at hd
          cases hd
  | succ fuel ih =>
      unfold drawings
      cases hq : p.roster.queue with
      | nil =>
          rw [drain_nil host hq] at hd
          obtain ⟨-, rfl, rfl⟩ := Option.some.inj hd
          simp only [List.append_nil]
          exact ⟨hp, hq⟩
      | cons h queue =>
          rcases hone : renderOne host { p with roster := { p.roster with queue } } h former with
            ⟨result, former₁, p₁⟩
          rw [drain_cons host hq hone] at hd
          cases result with
          | error e => cases hd
          | ok _ =>
              have hpass : (renderOne host { p with roster := { p.roster with queue } } h []).2.2 =
                  p₁ := by
                rw [← renderOne_pass former, hone]
              simp only [hpass]
              rw [← List.append_assoc]
              exact ih (hstep hp hq hone) hd

/-- The states that a pass goes through while its queue is drained, with the drawings so far. -/
inductive Drains (host : Host) (p₀ : Pass) : List Drawing → Pass → FormerTrees → Prop where
  | start : Drains host p₀ [] p₀ []
  | step {ds : List Drawing} {p p' : Pass} {former former' : FormerTrees} {h : Handle}
      {queue : List Handle} : Drains host p₀ ds p former → p.roster.queue = h :: queue →
      renderOne host { p with roster := { p.roster with queue } } h former = (.ok (), former', p') →
      Drains host p₀ (ds ++ (drawing? host { p with roster := { p.roster with queue } } h).toList)
        p' former'

/-- A pass that drains its queue goes through such states to the end of its drawings. -/
theorem drains_drain {p₀ p' : Pass} {ds : List Drawing} {former' : FormerTrees} {fuel : Nat}
    (hds : Drains host p₀ ds p former)
    (hd : drain host fuel p former = some (.ok (), former', p')) :
    Drains host p₀ (ds ++ drawings host fuel p) p' former' ∧ p'.roster.queue = [] :=
  drain_draws .step hds hd

section Drains

variable {S : Shape → Prop} {r₀ : Roster} {p₀ : Pass} {ds : List Drawing}

/-- What draining keeps is true of all these states. -/
theorem Steady.drains {Good : Value → Prop} {Rendered : Component → Tree → Prop}
    {Inv : Option Handle → Roster → FormerTrees → Prop} (hs : Steady host Good Rendered Inv)
    (hoffers : p₀.Offers Good) (hinv : Inv none p₀.roster []) (hd : Drains host p₀ ds p former) :
    p.Offers Good ∧ Inv none p.roster former := by
  induction hd with
  | start => exact ⟨hoffers, hinv⟩
  | @step ds p p' former former' h queue _ hq hone ih =>
      obtain ⟨hoffers', -, hok⟩ := hs.renderOne former ih.1 ih.2 hq
      rw [hone] at hoffers' hok
      exact ⟨hoffers', hok rfl⟩

theorem Drains.redrawn (hS : ∀ key a, S ((host.kinds key).render a).shape)
    (hp₀ : Redrawn S r₀ none p₀.roster []) (hd : Drains host p₀ ds p former) :
    Redrawn S r₀ none p.roster former :=
  ((Redrawn.steady r₀ hS).drains (fun _ _ _ _ _ => trivial) hp₀ hd).2

variable (host) in
/-- A rendering takes a course. -/
theorem course_outcomeOf (hfits : ∀ t, c.tree = some t → t.Fits) (p : Pass) (h : Handle) :
    ∃ rs fs, Course host.kinds { p with roster := (p.roster.keepState c).vacate h } rs fs
        (outcomeOf host p h c).2 ∧
      ∀ t, (outcomeOf host p h c).1 = .ok t → Tells t.refs t.edits rs fs :=
  runs_template host (Scope.ofAssigns c.assigns) _ hfits _

variable (host) in
/-- The component that is next is rendered, and settled afterwards. If the pass goes on then, that
was a drawing. -/
theorem exists_draws {queue : List Handle} (hfits : ∀ t, c.tree = some t → t.Fits)
    (hq : p.roster.queue = h :: queue) (hc : p.roster.get? h = some c) (hlive : c.retired = false)
    (former : FormerTrees) :
    ∃ rs fs q result, renderOne host { p with roster := { p.roster with queue } } h former =
        settle q h c former result ∧
      (Pass.template host (Scope.ofAssigns c.assigns) ((host.kinds c.kind.key).render c.assigns)
        c.tree).run (begun p h c) = (result, q) ∧
      drawing? host { p with roster := { p.roster with queue } } h =
        some ⟨h, result, takenBetween p q⟩ ∧
      ((settle q h c former result).1 = .ok () → Draws host p h c rs fs q result) := by
  have hhead : p.roster.queue.head? = some h := by rw [hq, List.head?_cons]
  obtain ⟨rs, fs, hcourse, htells⟩ := course_outcomeOf host hfits
    { p with roster := { p.roster with queue } } h
  obtain ⟨hsettle, hdrawing⟩ := renderOne_of_live host former
    (p := { p with roster := { p.roster with queue } }) hc hlive
  have hbegun : begun p h c = { p with
      roster := ({ p.roster with queue }.keepState c).vacate h } := by
    simp only [begun, hq, List.tail_cons]
  have hrun : (Pass.template host (Scope.ofAssigns c.assigns)
      ((host.kinds c.kind.key).render c.assigns) c.tree).run (begun p h c) =
      outcomeOf host { p with roster := { p.roster with queue } } h c := by
    rw [hbegun]
    rfl
  refine ⟨rs, fs, _, _, hsettle, hrun, hdrawing, fun hok => ?_⟩
  refine ⟨hhead, hc, hlive, hrun, hbegun ▸ hcourse, htells, fun e he => ?_⟩
  rcases settle_ok_cases hok with ⟨t, ht⟩ | ⟨e', he', hfatal⟩
  · cases he.symm.trans ht
  · obtain rfl := Except.error.inj (he.symm.trans he')
    exact hfatal

/-- **What is true at the start and kept by every drawing is true to the end.** What is skipped in
the queue changes nothing but the queue. -/
theorem Drains.induct {P : List Drawing → Pass → FormerTrees → Prop}
    (hS : ∀ key a, S ((host.kinds key).render a).shape) (hp₀ : Redrawn S r₀ none p₀.roster [])
    (start : P [] p₀ [])
    (skip : ∀ {ds p former h queue}, P ds p former → p.roster.queue = h :: queue →
      (∀ c, p.roster.get? h = some c → c.retired = true) →
      P ds { p with roster := { p.roster with queue } } former)
    (draw : ∀ {ds p former h c rs fs q result}, P ds p former → Redrawn S r₀ none p.roster former →
      Draws host p h c rs fs q result →
      P (ds ++ [⟨h, result, takenBetween p q⟩]) (settle q h c former result).2.2
        (settle q h c former result).2.1)
    (hd : Drains host p₀ ds p former) : P ds p former := by
  induction hd with
  | start => exact start
  | @step ds p p' former former' h queue hd hq hone ih =>
      have hredrawn := hd.redrawn hS hp₀
      rcases retired_or_live p.roster h with hret | ⟨c, hc, hlive⟩
      · obtain ⟨hskip, hnone⟩ := renderOne_of_retired host former
          (p := { p with roster := { p.roster with queue } }) hret
        rw [hone] at hskip
        simp only [Prod.mk.injEq, true_and] at hskip
        obtain ⟨rfl, rfl⟩ := hskip
        rw [hnone, Option.toList_none, List.append_nil]
        exact skip ih hq hret
      · have hfits (t : Tree) (ht : c.tree = some t) : t.Fits :=
          (hredrawn.suits h t ((tree?_of_get? hc).trans ht)).1
        obtain ⟨rs, fs, q, result, hsettle, -, hdrawing, hdraws⟩ :=
          exists_draws host hfits hq hc hlive former
        rw [hone] at hsettle
        rw [hdrawing]
        have hnext := draw ih hredrawn (hdraws (congrArg Prod.fst hsettle.symm))
        rw [← hsettle] at hnext
        exact hnext

end Drains

/-! ## What a drawing does to the records -/

section Records

variable {rs : Refs} {fs : List (String × Stream.Flush)}

variable (former) in
/-- The record is put back, with another tree if the rendering went well. -/
theorem get?_settle (hlt : h < q.roster.slots.length)
    (hrec : ∀ e, result = .error e → e.isFatal = false) :
    ∃ c' : Component, c'.id = c.id ∧ c'.retired = c.retired ∧ c'.tree = result.toOption.or c.tree ∧
      ∀ k, (settle q h c former result).2.2.roster.get? k =
        if k = h then some c' else q.roster.get? k := by
  cases result with
  | ok t =>
      exact ⟨{ c with tree := some t, assigns := c.assigns.settled }, rfl, rfl, rfl,
        get?_put hlt _⟩
  | error e =>
      refine ⟨c, rfl, rfl, rfl, fun k => ?_⟩
      rw [settle_error (hrec e rfl)]
      cases c.tree.isNone with
      | true =>
          exact get?_put (r := { q.roster with stillborn := q.roster.stillborn.insert h }) hlt c k
      | false => exact get?_put hlt c k

theorem get?_former_settle (hrec : ∀ e, result = .error e → e.isFatal = false) (k : Handle) :
    (settle q h c former result).2.1.get? k ≠ none ↔
      (k = h ∧ result.toOption ≠ none) ∨ former.get? k ≠ none := by
  cases result with
  | ok t =>
      change (former.insertNew h c.tree).get? k ≠ none ↔ _
      rw [Keyed.get?_insertNew]
      by_cases hk : k = h <;> simp [hk, Except.toOption]
  | error e =>
      rw [settle_error (hrec e rfl)]
      simp [Except.toOption]

/-- While a record is away, a course leaves the others. -/
theorem grows_course (ha : Away p.roster h) (hr : (p.roster.put h c).Arena)
    (hcourse : Course host.kinds p rs fs q) :
    Away q.roster h ∧ (q.roster.put h c).Arena ∧ Grows (p.roster.put h c) (q.roster.put h c) := by
  have hclosed : Pass.Closed host.kinds (fun _ => True) _ :=
    closed_edit_away (I := fun r => r.Arena ∧ Grows (p.roster.put h c) r) (fun _ => trivial)
      (fun r r' hr he => ⟨hr.1.edit he, hr.2.trans (.of_edit hr.1.spare_empty he)⟩) h c
  exact (hcourse.keeps hclosed ⟨fun _ _ _ _ _ => trivial, ha, hr, .refl _⟩).2

namespace Draws

variable (hd : Draws host p h c rs fs q result) (hr : p.roster.Arena)
include hd hr

theorem away_begun : Away (begun p h c).roster h ∧
    (begun p h c).roster.put h c = { p.roster with queue := p.roster.queue.tail }.keepState c := by
  have hget : ({ p.roster with queue := p.roster.queue.tail }.keepState c).get? h = some c :=
    hd.record
  refine ⟨⟨?_, hr.not_spare hd.record⟩, ?_⟩
  · change (p.roster.slots.set h none)[h]? = some none
    rw [List.getElem?_set_self (lt_of_get? hd.record)]
  · change (Roster.vacate _ h).put h c = _
    rw [put_vacate, put_self hget]

/-- Behind the component that is drawn, records stay and new ones come. -/
theorem grows : Away q.roster h ∧ (q.roster.put h c).Arena ∧
    Grows p.roster (q.roster.put h c) := by
  obtain ⟨haway, hback⟩ := hd.away_begun hr
  have hbegun : ((begun p h c).roster.put h c).Arena := by
    rw [hback]
    exact hr.congr rfl rfl rfl rfl rfl
  obtain ⟨haway', harena, hgrows⟩ := grows_course haway hbegun hd.course
  refine ⟨haway', harena, .trans ?_ hgrows⟩
  rw [hback]
  exact .of_get? (fun _ => rfl) rfl

theorem lt_slots : h < q.roster.slots.length :=
  (List.getElem?_eq_some_iff.mp (hd.grows hr).1.1).1

variable (former) in
/-- Every record is still there, the one of the component that was drawn included. -/
theorem record_settle {k : Handle} {d : Component} (hk : p.roster.get? k = some d) :
    ∃ d', (settle q h c former result).2.2.roster.get? k = some d' ∧ d'.id = d.id ∧
      d'.retired = d.retired := by
  obtain ⟨c', hid, hret, -, hget⟩ := get?_settle former (hd.lt_slots hr) hd.recovers
  rw [hget]
  by_cases hkh : k = h
  · subst hkh
    obtain rfl := Option.some.inj (hd.record.symm.trans hk)
    exact ⟨c', if_pos rfl, hid, hret⟩
  · obtain ⟨d', hd', hid', hret', -⟩ := (hd.grows hr).2.2.record k d hk
    rw [get?_put (hd.lt_slots hr), if_neg hkh] at hd'
    exact ⟨d', (if_neg hkh).trans hd', hid', hret'⟩

/-- All trees stay but that of the component, which has a new one if the drawing went well. -/
theorem tree?_settle (k : Handle) : (settle q h c former result).2.2.roster.tree? k =
    (if h = k then result.toOption else none).or (p.roster.tree? k) := by
  obtain ⟨c', -, -, htree, hget⟩ := get?_settle former (hd.lt_slots hr) hd.recovers
  unfold tree?
  rw [hget]
  by_cases hkh : k = h
  · subst hkh
    rw [if_pos rfl, if_pos rfl, hd.record]
    exact htree
  · have hother := (hd.grows hr).2.2.tree? k
    unfold tree? at hother
    rw [get?_put (hd.lt_slots hr), if_neg hkh] at hother
    rw [if_neg hkh, if_neg (Ne.symm hkh), Option.none_or]
    exact hother

end Draws

end Records

/-- **Records stay while the queue is drained.** -/
theorem Drains.record {S : Shape → Prop} {r₀ : Roster} {p₀ : Pass} {ds : List Drawing}
    (hS : ∀ key a, S ((host.kinds key).render a).shape) (hp₀ : Redrawn S r₀ none p₀.roster [])
    (hd : Drains host p₀ ds p former) {k : Handle} {c : Component}
    (hk : p₀.roster.get? k = some c) :
    ∃ c', p.roster.get? k = some c' ∧ c'.id = c.id ∧ c'.retired = c.retired := by
  refine hd.induct (P := fun _ p _ =>
    ∃ c', p.roster.get? k = some c' ∧ c'.id = c.id ∧ c'.retired = c.retired) hS hp₀
    ⟨c, hk, rfl, rfl⟩ (fun ih _ _ => ih) ?_
  intro ds p former h d rs fs q result ih hredrawn hdraw
  obtain ⟨c', hc', hid, hret⟩ := ih
  obtain ⟨c'', hc'', hid', hret'⟩ := hdraw.record_settle former hredrawn.arena hc'
  exact ⟨c'', hc'', hid'.trans hid, hret'.trans hret⟩

/-! ## The last drawing -/

section LastDrawn

theorem lastDrawn_append (ds es : List Drawing) (h : Handle) :
    lastDrawn (ds ++ es) h = (lastDrawn es h).or (lastDrawn ds h) := by
  simp [lastDrawn, List.findSome?_append]

theorem lastDrawn_singleton (d : Drawing) (h : Handle) :
    lastDrawn [d] h = if d.handle = h then d.result.toOption else none := by
  simp [lastDrawn]

/-- The last drawing of a component that went well is the one that counts. -/
theorem lastDrawn_of_last {earlier later : List Drawing} {d : Drawing} {t : Tree}
    (ht : d.result.toOption = some t) (hlast : lastDrawn later d.handle = none) :
    lastDrawn (earlier ++ d :: later) d.handle = some t := by
  have hcons : d :: later = [d] ++ later := rfl
  rw [hcons, lastDrawn_append, lastDrawn_append, lastDrawn_singleton, hlast, if_pos rfl, ht]
  rfl

theorem lastDrawn_mem {ds : List Drawing} {t : Tree} (ht : lastDrawn ds h = some t) :
    ∃ d ∈ ds, d.handle = h ∧ d.result = .ok t := by
  obtain ⟨d, hd, hfound⟩ := List.exists_of_findSome?_eq_some ht
  refine ⟨d, List.mem_reverse.mp hd, ?_⟩
  split at hfound
  · next heq =>
      refine ⟨heq, ?_⟩
      cases hres : d.result with
      | ok u => rw [hres] at hfound; exact congrArg _ (Option.some.inj hfound)
      | error e => rw [hres] at hfound; cases hfound
  · cases hfound

variable {S : Shape → Prop} {r₀ : Roster} {p₀ : Pass} {ds : List Drawing}

/-- **A component has the tree of its last drawing**, or the one from before the pass, and a former
tree is noted where there is one. -/
theorem Drains.trees (hS : ∀ key a, S ((host.kinds key).render a).shape)
    (hp₀ : Redrawn S r₀ none p₀.roster []) (hd : Drains host p₀ ds p former) (k : Handle) :
    p.roster.tree? k = (lastDrawn ds k).or (p₀.roster.tree? k) ∧
      (former.get? k ≠ none ↔ lastDrawn ds k ≠ none) := by
  refine hd.induct (P := fun ds p former =>
    p.roster.tree? k = (lastDrawn ds k).or (p₀.roster.tree? k) ∧
      (former.get? k ≠ none ↔ lastDrawn ds k ≠ none)) hS hp₀
    ⟨rfl, iff_of_false (fun h => h rfl) fun h => h rfl⟩ ?_ ?_
  · intro ds p former h queue ih _ _
    exact ih
  · intro ds p former h c rs fs q result ih hredrawn hdraw
    rw [lastDrawn_append, lastDrawn_singleton, hdraw.tree?_settle hredrawn.arena, ih.1,
      Option.or_assoc, get?_former_settle hdraw.recovers, ih.2]
    refine ⟨rfl, ?_⟩
    by_cases hk : h = k
    · subst hk
      cases result with
      | ok t => simp [Except.toOption]
      | error e => simp [Except.toOption]
    · simp [hk, Ne.symm hk]

end LastDrawn

end ViewSync.Roster
