import ViewSync.Proofs.Roster.Journal
import ViewSync.Proofs.Roster.Ranks
import ViewSync.Proofs.Roster.Sighted

/-!
# Turn by turn

While the queue is drained one component after the other has its turn. What every reference, every
turn and every way to settle a turn keep is carried from any state of the drain to its end, in any
state of the roster, however its records and ids go together. Among it is the record of a handle
that is not to spare, wherever that record is: in its slot, or out of it while its component is
rendered.
-/

namespace ViewSync.Roster

open ViewSync.Pass

variable {host : Host} {p p' p₀ : Pass} {h : Handle} {c : Component} {ds : List Drawing}
variable {former former' : FormerTrees} {queue : List Handle} {fuel : Nat}

/-! ## What is carried through -/

/-- A property of moments, and of the drawings so far, that draining the queue keeps. -/
structure Carried (host : Host) (Inv : List Drawing → Moment → Prop) : Prop where
  /-- A reference keeps it. -/
  refer : ∀ {ds m} id kind props owner, Inv ds m →
    Inv ds { m with roster := (m.roster.refer host.kinds id kind props owner).2 }
  /-- So does noting what is seen and what was drawn. -/
  marks : ∀ {ds m} seen drawn, Inv ds m →
    Inv ds { m with roster := { m.roster with seen, drawn } }
  /-- What has been retired, or is not there, is not rendered. -/
  skip : ∀ {ds r former h queue}, Inv ds ⟨none, r, former⟩ → r.queue = h :: queue →
    Inv ds ⟨none, { r with queue }, former⟩
  /-- So does taking the record of the next component out of its slot. -/
  lift : ∀ {ds r former h queue c}, Inv ds ⟨none, r, former⟩ → r.queue = h :: queue →
    r.get? h = some c → c.retired = false →
    Inv ds ⟨some (h, c), ({ r with queue }.keepState c).vacate h, former⟩
  /-- So does putting it back with a new tree. -/
  redraw : ∀ {ds r former h c} t taken, Inv ds ⟨some (h, c), r, former⟩ →
    Inv (ds ++ [⟨h, .ok t, taken⟩])
      ⟨none, r.put h { c with tree := some t, assigns := c.assigns.settled },
        former.insertNew h c.tree⟩
  /-- So does putting it back after a failure. -/
  fail : ∀ {ds r former h c} e taken, Inv ds ⟨some (h, c), r, former⟩ →
    Inv (ds ++ [⟨h, .error e, taken⟩])
      ⟨none, (if c.tree.isNone then { r with stillborn := r.stillborn.insert h } else r).put h c,
        former⟩

namespace Carried

variable {Inv : List Drawing → Moment → Prop} (hi : Carried host Inv)
include hi

/-- A template may be rendered. -/
theorem closed (ds : List Drawing) (away : Option (Handle × Component)) (former : FormerTrees) :
    Pass.Closed host.kinds (fun _ => True) fun p => Inv ds ⟨away, p.roster, former⟩ where
  refer p id kind props owner hp _ :=
    hi.refer (m := ⟨away, p.roster, former⟩) id kind props owner hp
  follow p _ hp := hi.marks (m := ⟨away, p.roster, former⟩) _ p.roster.drawn hp
  draw p e hp := by
    unfold noteDrawn
    split
    · exact hp
    · exact hi.marks (m := ⟨away, p.roster, former⟩) p.roster.seen _ hp
  take _ _ hp := hp
  note _ _ hp := hp
  items _ _ _ _ _ _ _ := trivial
  keys _ := trivial

/-- A turn, with the drawing that it comes to. -/
theorem renderOne (hinv : Inv ds ⟨none, p.roster, former⟩) (hq : p.roster.queue = h :: queue)
    (hone : renderOne host { p with roster := { p.roster with queue } } h former =
      (.ok (), former', p')) :
    Inv (ds ++ (drawing? host { p with roster := { p.roster with queue } } h).toList)
      ⟨none, p'.roster, former'⟩ := by
  rcases retired_or_live p.roster h with hret | ⟨c, hc, hlive⟩
  · obtain ⟨hskip, hnone⟩ := renderOne_of_retired host former
      (p := { p with roster := { p.roster with queue } }) hret
    rw [hone] at hskip
    simp only [Prod.mk.injEq, true_and] at hskip
    obtain ⟨rfl, rfl⟩ := hskip
    rw [hnone, Option.toList_none, List.append_nil]
    exact hi.skip hinv hq
  · obtain ⟨hsettle, hdrawing⟩ := renderOne_of_live host former
      (p := { p with roster := { p.roster with queue } }) hc hlive
    rw [hone] at hsettle
    rw [hdrawing, Option.toList_some]
    have hyields := Pass.yields_template (hi.closed ds (some (h, c)) former)
      (s := Scope.ofAssigns c.assigns) (t := (host.kinds c.kind.key).render c.assigns)
      (Scope.all_true _) (Template.makes_true _) c.tree
      { p with roster := ({ p.roster with queue }.keepState c).vacate h }
      (hi.lift hinv hq hc hlive)
    have hafter : Inv ds ⟨some (h, c),
        (outcomeOf host { p with roster := { p.roster with queue } } h c).2.roster, former⟩ :=
      hyields.1
    generalize takenBetween _ _ = taken
    generalize (outcomeOf host { p with roster := { p.roster with queue } } h c).2 = q at *
    generalize (outcomeOf host { p with roster := { p.roster with queue } } h c).1 = result at *
    cases result with
    | ok t =>
        obtain ⟨-, rfl, rfl⟩ := Prod.mk.inj hsettle |>.imp_right Prod.mk.inj
        exact hi.redraw t taken hafter
    | error e =>
        rcases settle_ok_cases (congrArg Prod.fst hsettle).symm with ⟨t, ht⟩ | ⟨e', he', hfatal⟩
        · cases ht
        · obtain rfl := Except.error.inj he'
          rw [settle_error hfatal] at hsettle
          obtain ⟨-, rfl, rfl⟩ := Prod.mk.inj hsettle |>.imp_right Prod.mk.inj
          exact hi.fail e taken hafter

/-- **What is carried through is true of every state of a drain**, if it is true at the start. -/
theorem drains (hinv : Inv [] ⟨none, p₀.roster, []⟩) (hd : Drains host p₀ ds p former) :
    Inv ds ⟨none, p.roster, former⟩ := by
  induction hd with
  | start => exact hinv
  | step _ hq hone ih => exact hi.renderOne ih hq hone

/-- **And it is true at the end**, from any state on. -/
theorem drain (ds : List Drawing) (hinv : Inv ds ⟨none, p.roster, former⟩)
    (hd : drain host fuel p former = some (.ok (), former', p')) :
    Inv (ds ++ drawings host fuel p) ⟨none, p'.roster, former'⟩ :=
  (drain_draws (P := fun ds p former => Inv ds ⟨none, p.roster, former⟩) hi.renderOne hinv hd).1

end Carried

/-! ## The rest of a drain -/

/-- A drain that comes to an end goes through every state that it can go through. -/
theorem Drains.rest {x : Except Error Unit × FormerTrees × Pass} (hds : Drains host p₀ ds p former)
    (hd : drain host fuel p₀ [] = some x) :
    ∃ rest, drain host rest p former = some x ∧
      drawings host fuel p₀ = ds ++ drawings host rest p := by
  induction hds with
  | start => exact ⟨fuel, hd, rfl⟩
  | @step ds p p' former former' h queue _ hq hone ih =>
      obtain ⟨rest, hrest, hdrawings⟩ := ih
      cases rest with
      | zero =>
          unfold drain at hrest
          rw [hq] at hrest
          cases hrest
      | succ rest =>
          rw [drain_cons host hq hone] at hrest
          refine ⟨rest, hrest, ?_⟩
          have hpass : (renderOne host { p with roster := { p.roster with queue } } h []).2.2 =
              p' := by
            rw [← renderOne_pass former, hone]
          rw [hdrawings, List.append_assoc]
          congr 1
          conv_lhs => unfold drawings
          simp only [hq, hpass]

/-- The turn of a component: the drawings before it, the state of the pass, and what rendering the
component comes to. -/
structure Turn (host : Host) (p₀ : Pass) (ds : List Drawing) (p : Pass) (former : FormerTrees)
    (h : Handle) (c : Component) (result : Except Error Tree) : Prop where
  /-- The drawings before it. -/
  drains : Drains host p₀ ds p former
  /-- The component is next in the queue. -/
  next : p.roster.queue.head? = some h
  /-- It has a record. -/
  record : p.roster.get? h = some c
  /-- It is live. -/
  live : c.retired = false
  /-- Rendering it comes to this. -/
  outcome : (outcomeOf host { p with roster := { p.roster with queue := p.roster.queue.tail } } h
    c).1 = result

/-- The drain goes on behind a turn. -/
theorem Turn.rest {result : Except Error Tree} (ht : Turn host p₀ ds p former h c result)
    (hd : drain host fuel p₀ [] = some (.ok (), former', p')) :
    ∃ rest q taken, (settle q h c former result).1 = .ok () ∧
      drain host rest (settle q h c former result).2.2 (settle q h c former result).2.1 =
        some (.ok (), former', p') ∧
      drawings host fuel p₀ = ds ++ ⟨h, result, taken⟩ ::
        drawings host rest (settle q h c former result).2.2 := by
  obtain ⟨rest, hrest, hdrawings⟩ := ht.drains.rest hd
  obtain ⟨queue, hq⟩ : ∃ queue, p.roster.queue = h :: queue := List.head?_eq_some_iff.mp ht.next
  have houtcome := ht.outcome
  rw [hq, List.tail_cons] at houtcome
  obtain ⟨hsettle, hdrawing⟩ := renderOne_of_live host former
    (p := { p with roster := { p.roster with queue } }) ht.record ht.live
  rw [houtcome] at hsettle hdrawing
  generalize takenBetween _ _ = taken at hdrawing
  generalize (outcomeOf host { p with roster := { p.roster with queue } } h c).2 = q at hsettle
  cases rest with
  | zero =>
      unfold drain at hrest
      rw [hq] at hrest
      cases hrest
  | succ rest =>
      refine ⟨rest, q, taken, ?_⟩
      generalize settle q h c former result = after at hsettle ⊢
      obtain ⟨answer, former₁, p₁⟩ := after
      rw [drain_cons host hq hsettle] at hrest
      cases answer with
      | error e => cases hrest
      | ok _ =>
          refine ⟨rfl, hrest, ?_⟩
          have hpass : (renderOne host { p with roster := { p.roster with queue } } h []).2.2 =
              p₁ := by
            rw [← renderOne_pass former, hsettle]
          rw [hdrawings]
          congr 1
          conv_lhs => unfold drawings
          simp only [hq, hdrawing, hpass]
          rfl

/-! ## Records that stay -/

theorem get?_put_of_ne {r : Roster} {k : Handle} (hk : k ≠ h) (c : Component) :
    (r.put h c).get? k = r.get? k :=
  congrArg Option.join (List.getElem?_set_ne (Ne.symm hk))

theorem get?_create_of_ne {r : Roster} {id : String} {kind : KindRef} {assigns : Assigns}
    {owner : Option StreamEntry} {k : Handle} (hk : k ≠ r.takeHandle.1) :
    (r.create id kind assigns owner).get? k = r.get? k :=
  (get?_put_of_ne (r := r.takeHandle.2) hk _).trans (get?_takeHandle_snd r k)

/-- A record is out of its slot, whatever the roster is like, or is the one in its slot. -/
theorem record?_cases (m : Moment) (h : Handle) :
    (∃ c, m.away = some (h, c) ∧ ∀ r, ({ m with roster := r } : Moment).record? h = some c) ∨
      ∀ r, ({ m with roster := r } : Moment).record? h = r.get? h := by
  unfold Moment.record?
  cases m.away with
  | none => exact .inr fun _ => rfl
  | some away =>
      obtain ⟨k, c⟩ := away
      by_cases hk : k = h
      · exact .inl ⟨c, by rw [hk], fun _ => if_pos hk⟩
      · exact .inr fun _ => if_neg hk

/-- A reference is an edit, whatever is handed over. -/
theorem edit_refer_any (kinds : Kinds) (r : Roster) (id : String) (kind : KindRef) (props : Fields)
    (owner : Option StreamEntry) :
    Edit kinds (fun _ => True) r (r.refer kinds id kind props owner).2 :=
  edit_refer r id kind owner fun _ _ => trivial

/-- References and marks leave the record of a handle that is not to spare, but for its assigns and
its owner. -/
theorem record?_edit {kinds : Kinds} {Good : Value → Prop} {m : Moment} {r : Roster}
    (hspare : h ∉ m.roster.spare) (hlt : h < m.roster.slots.length)
    (he : Edit kinds Good m.roster r) (hc : m.record? h = some c) :
    h ∉ r.spare ∧ h < r.slots.length ∧ ∃ assigns owner,
      ({ m with roster := r } : Moment).record? h = some { c with assigns, owner } := by
  have hsame (hget : r.get? h = m.roster.get? h) : ∃ assigns owner,
      ({ m with roster := r } : Moment).record? h = some { c with assigns, owner } := by
    refine ⟨c.assigns, c.owner, ?_⟩
    rcases record?_cases m h with ⟨d, -, haway⟩ | hin
    · exact (haway r).trans ((haway m.roster).symm.trans hc)
    · exact ((hin r).trans hget).trans ((hin m.roster).symm.trans hc)
  cases he with
  | marks seen drawn => exact ⟨hspare, hlt, hsame rfl⟩
  | keep hk => exact ⟨hspare, hlt, hsame rfl⟩
  | @rewrite k d props owner seen queue hd _ _ =>
      refine ⟨hspare, Nat.lt_of_lt_of_eq hlt (length_put (m.roster.keepState d) k _).symm, ?_⟩
      have hget := get?_handOver kinds hd props owner h
      by_cases hk : h = k
      · subst hk
        rw [if_pos rfl] at hget
        rcases record?_cases m h with ⟨b, -, haway⟩ | hin
        · -- the record is out of its slot, and it is another one that is handed the props
          exact ⟨c.assigns, c.owner, (haway _).trans ((haway m.roster).symm.trans hc)⟩
        · obtain rfl := Option.some.inj (hd.symm.trans ((hin m.roster).symm.trans hc))
          exact ⟨_, _, (hin _).trans hget⟩
      · rw [if_neg hk] at hget
        exact hsame hget
  | @create id kind props a b owner seen queue _ _ _ _ _ _ =>
      refine ⟨fun hin => hspare ?_, ?_, hsame (get?_create_of_ne (ne_takeHandle hspare hlt))⟩
      · change h ∈ (m.roster.create id kind b owner).spare at hin
        rw [create_rest] at hin
        exact List.mem_of_mem_tail hin
      · exact Nat.lt_of_lt_of_le hlt (length_le_create m.roster id kind b owner)

/-- The record of a live component, under a handle that is not to spare. -/
structure Taken (h : Handle) (id : String) (m : Moment) : Prop where
  /-- The handle is not to spare. -/
  spare : h ∉ m.roster.spare
  /-- It has a slot. -/
  slot : h < m.roster.slots.length
  /-- There is a live record with the id under it. -/
  record : ∃ c, m.record? h = some c ∧ c.id = id ∧ c.retired = false

theorem Taken.edit {kinds : Kinds} {Good : Value → Prop} {id : String} {m : Moment} {r : Roster}
    (ht : Taken h id m) (he : Edit kinds Good m.roster r) : Taken h id { m with roster := r } := by
  obtain ⟨c, hc, hid, hlive⟩ := ht.record
  obtain ⟨hspare, hlt, assigns, owner, hc'⟩ := record?_edit ht.spare ht.slot he hc
  exact ⟨hspare, hlt, _, hc', hid, hlive⟩

/-- A record is put back in its slot, rewritten, and all others are where they were. -/
theorem record?_putBack {r r' : Roster} {former' : FormerTrees} {k : Handle} (b : Component)
    (hlt : h < r.slots.length) (hget : ∀ j, r'.get? j = (r.put k b).get? j) :
    (⟨none, r', former'⟩ : Moment).record? h =
      if h = k then some b else (⟨some (k, c), r, former⟩ : Moment).record? h := by
  change r'.get? h = _
  rw [hget]
  unfold Moment.record?
  by_cases hk : h = k
  · subst hk
    rw [if_pos rfl, get?_put hlt, if_pos rfl]
  · rw [if_neg hk, get?_put_of_ne hk]
    exact (if_neg (Ne.symm hk)).symm

/-- A record is taken out of its slot. -/
theorem record?_lift {r : Roster} {k : Handle} (hc : r.get? k = some c) (queue : List Handle) :
    (⟨some (k, c), ({ r with queue }.keepState c).vacate k, former⟩ : Moment).record? h =
      r.get? h := by
  unfold Moment.record?
  by_cases hk : k = h
  · subst hk
    exact (if_pos rfl).trans hc.symm
  · refine (if_neg hk).trans ((get?_vacate _ k h).trans ?_)
    exact if_neg (Ne.symm hk)

/-- A component that fails keeps its record. -/
theorem putBack_of_fail (r : Roster) (k : Handle) (c : Component) :
    ∃ stillborn, (if c.tree.isNone then { r with stillborn := r.stillborn.insert k } else r).put k
      c = { r.put k c with stillborn } ∧
        ∀ j, j ∈ stillborn ↔ j ∈ r.stillborn ∨ (j = k ∧ c.tree = none) := by
  cases htree : c.tree with
  | none =>
      refine ⟨r.stillborn.insert k, rfl, fun j => ?_⟩
      rw [KeySet.mem_insert, or_comm]
      simp
  | some t => exact ⟨r.stillborn, rfl, fun j => by simp⟩

theorem Taken.putBack {id : String} {r r' : Roster} {former' : FormerTrees} {k : Handle}
    {b : Component} (ht : Taken h id ⟨some (k, c), r, former⟩) (hid : b.id = c.id)
    (hret : b.retired = c.retired) (hspare : r'.spare = r.spare)
    (hslots : r'.slots = (r.put k b).slots) : Taken h id ⟨none, r', former'⟩ := by
  have hget (j : Handle) : r'.get? j = (r.put k b).get? j := by rw [get?, get?, hslots]
  have hlen : r.slots.length = r'.slots.length := by
    rw [hslots]
    exact (length_put r k b).symm
  refine ⟨fun hin => ht.spare (hspare ▸ hin), Nat.lt_of_lt_of_eq ht.slot hlen, ?_⟩
  obtain ⟨d, hd, hdid, hlive⟩ := ht.record
  rw [record?_putBack (c := c) b ht.slot hget]
  by_cases hk : h = k
  · subst hk
    obtain rfl : c = d := by simpa [Moment.record?] using hd
    exact ⟨b, if_pos rfl, hid.trans hdid, hret.trans hlive⟩
  · rw [if_neg hk]
    exact ⟨d, hd, hdid, hlive⟩

/-- **A component that is taken stays**, whatever is rendered. -/
theorem carried_taken (host : Host) (h : Handle) (id : String) :
    Carried host fun _ m => Taken h id m where
  refer id kind props owner ht := ht.edit (edit_refer_any host.kinds _ id kind props owner)
  marks seen drawn ht := ht.edit (.marks seen drawn : Edit host.kinds (fun _ => True) _ _)
  skip ht _ := ⟨ht.spare, ht.slot, ht.record⟩
  lift {ds r former k queue c} ht _ hc _ := by
    refine ⟨ht.spare, Nat.lt_of_lt_of_eq ht.slot (length_vacate _ k).symm, ?_⟩
    rw [record?_lift hc queue]
    exact ht.record
  redraw {ds r former k c} t _ ht :=
    ht.putBack (b := { c with tree := some t, assigns := c.assigns.settled }) rfl rfl rfl rfl
  fail {ds r former k c} _ _ ht := by
    obtain ⟨stillborn, heq, -⟩ := putBack_of_fail r k c
    rw [heq]
    exact ht.putBack (b := c) rfl rfl rfl rfl

/-- So does whatever is stillborn. -/
theorem carried_stillborn (host : Host) (h : Handle) :
    Carried host fun _ m => h ∈ m.roster.stillborn where
  refer id kind props owner hh := by
    rw [stillborn_refer]
    exact hh
  marks _ _ hh := hh
  skip hh _ := hh
  lift hh _ _ _ := hh
  redraw _ _ hh := hh
  fail {ds r former k c} _ _ hh := by
    obtain ⟨stillborn, heq, hiff⟩ := putBack_of_fail r k c
    rw [heq]
    exact (hiff h).mpr (.inl hh)

end ViewSync.Roster
