import ViewSync.Proofs.Roster.Draining
import ViewSync.Proofs.Roster.Undo

/-!
# Every step of a pass leaves a trace

A roster in the middle of a pass is *traced* to the roster that the pass was opened on when the undo
record, together with the trees from before, tells every record of the old roster. Each thing that a
pass does to a roster keeps the trace, and undoing follows it all the way back.
-/

namespace ViewSync.Roster

/-- Assigns and owner put as they were. -/
def withState (state : Assigns × Option StreamEntry) (c : Component) : Component :=
  { c with assigns := state.1, owner := state.2 }

/-- The tree put as it was. -/
def withTree (tree : Option Tree) (c : Component) : Component := { c with tree }

/-- What a record was before the pass. -/
def rewind (u : Undo) (former : FormerTrees) (h : Handle) (c : Component) : Component :=
  mend withTree former h (mend withState u.states h c)

/-- The undo record and the former trees tell what the roster was. -/
structure Traced (r₀ r : Roster) (u : Undo) (former : FormerTrees) : Prop where
  /-- Records, ids and handles go together. -/
  arena : r.Arena
  /-- This is the undo record. -/
  undo : r.undo = some u
  /-- It has the number of slots from before. -/
  size : u.size = r₀.slots.length
  /-- No slot was taken away. -/
  grown : r₀.slots.length ≤ r.slots.length
  /-- It has the handles that were to spare. -/
  spare : u.spare = r₀.spare
  /-- It has the queue from before. -/
  queue : u.queue = r₀.queue
  /-- It has what was seen before. -/
  seen : u.seen = r₀.seen
  /-- The same handles are retired. -/
  retired : r.retired = r₀.retired
  /-- The capacity is the same. -/
  capacity : r.capacity = r₀.capacity
  /-- The assigns and owners in it are in order. -/
  states_sorted : u.states.Sorted
  /-- The trees from before are not in it yet. -/
  trees : u.trees = []
  /-- The handles that were given out had no records. -/
  born : ∀ h ∈ u.born, r₀.get? h = none
  /-- The records that were dropped may come back. -/
  dropped : Revivable r u.dropped
  /-- Every record from before the pass comes back as it was. -/
  records : ∀ h, h ∉ u.born →
    ((r.get? h).or (u.dropped.find? (·.handle = h))).map (rewind u former h) = r₀.get? h
  /-- What is stillborn is not retired. -/
  stillborn : ∀ h ∈ r.stillborn, h ∉ r.retired

/-- A roster between two passes. -/
structure Resting (r : Roster) : Prop where
  /-- Records, ids and handles go together. -/
  arena : r.Arena
  /-- No pass is under way. -/
  undo : r.undo = none
  /-- No entry is noted as drawn. -/
  drawn : r.drawn = []
  /-- Nothing is stillborn. -/
  stillborn : r.stillborn = []

/-- The undo record of a pass that has just been opened. -/
def freshUndo (r : Roster) : Undo :=
  { size := r.slots.length, spare := r.spare, queue := r.queue, seen := r.seen }

theorem Resting.openPass {r : Roster} (hr : Resting r) : Traced r r.openPass (freshUndo r) [] where
  arena := hr.arena.congr rfl rfl rfl rfl rfl
  undo := rfl
  size := rfl
  grown := Nat.le_refl _
  spare := rfl
  queue := rfl
  seen := rfl
  retired := rfl
  capacity := rfl
  states_sorted := List.Pairwise.nil
  trees := rfl
  born _ h := by cases h
  dropped := .nil r.openPass
  records h _ := by
    change ((r.get? h).or none).map (rewind (freshUndo r) [] h) = r.get? h
    cases r.get? h <;> rfl
  stillborn h hh := by
    change h ∈ r.stillborn at hh
    rw [hr.stillborn] at hh
    cases hh

namespace Traced

variable {r₀ r : Roster} {u : Undo} {former : FormerTrees}

/-! ## Steps -/

/-- Marks leave no trace. -/
theorem marks (ht : Traced r₀ r u former) (seen : KeySet Handle) (drawn : List StreamEntry)
    (queue : List Handle) : Traced r₀ { r with seen, drawn, queue } u former where
  arena := ht.arena.congr rfl rfl rfl rfl rfl
  undo := ht.undo
  size := ht.size
  grown := ht.grown
  spare := ht.spare
  queue := ht.queue
  seen := ht.seen
  retired := ht.retired
  capacity := ht.capacity
  states_sorted := ht.states_sorted
  trees := ht.trees
  born := ht.born
  dropped := ht.dropped.congr rfl rfl
  records := ht.records
  stillborn := ht.stillborn

/-- The undo record after the assigns and the owner of a record were kept. -/
def keeping (u : Undo) (c : Component) : Undo :=
  { u with states := u.states.insertNew c.handle (c.assigns, c.owner) }

theorem states_keeping (u : Undo) {c : Component} {h : Handle} (hh : c.handle = h) :
    (keeping u c).states.get? h ≠ none := by
  unfold keeping
  rw [Keyed.get?_insertNew, if_pos hh.symm]
  exact Option.some_ne_none _

theorem keep {h : Handle} {c : Component} (ht : Traced r₀ r u former) (hc : r.get? h = some c) :
    Traced r₀ (r.keepState c) (keeping u c) former where
  arena := ht.arena.congr rfl rfl rfl rfl rfl
  undo := by
    change r.undo.map _ = some (keeping u c)
    rw [ht.undo]
    rfl
  size := ht.size
  grown := ht.grown
  spare := ht.spare
  queue := ht.queue
  seen := ht.seen
  retired := ht.retired
  capacity := ht.capacity
  states_sorted := Keyed.sorted_insertNew ht.states_sorted _ _
  trees := ht.trees
  born := ht.born
  dropped := ht.dropped.congr rfl rfl
  records k hk := by
    change ((r.get? k).or (u.dropped.find? (·.handle = k))).map (rewind (keeping u c) former k)
      = r₀.get? k
    rw [← ht.records k hk]
    have hh := ht.arena.handle_eq h c hc
    by_cases hkh : k = h
    · subst hkh
      rw [hc]
      -- what is kept now is what is there, unless something was kept before
      simp only [Option.some_or, Option.map_some, rewind, keeping, mend, Keyed.get?_insertNew, hh,
        if_true]
      cases u.states.get? k <;> rfl
    · congr 1
      funext d
      have hkept : (keeping u c).states.get? k = u.states.get? k := by
        unfold keeping
        rw [Keyed.get?_insertNew, hh, if_neg hkh]
      simp only [rewind, mend, hkept]
  stillborn := ht.stillborn

/-- A former tree is noted. -/
theorem note {h : Handle} {c : Component} (ht : Traced r₀ r u former) (hc : r.get? h = some c) :
    Traced r₀ r u (former.insertNew h c.tree) where
  arena := ht.arena
  undo := ht.undo
  size := ht.size
  grown := ht.grown
  spare := ht.spare
  queue := ht.queue
  seen := ht.seen
  retired := ht.retired
  capacity := ht.capacity
  states_sorted := ht.states_sorted
  trees := ht.trees
  born := ht.born
  dropped := ht.dropped
  records k hk := by
    rw [← ht.records k hk]
    by_cases hkh : k = h
    · subst hkh
      rw [hc]
      simp only [Option.some_or, Option.map_some, rewind, mend, Keyed.get?_insertNew, if_true]
      cases former.get? k with
      | none => cases u.states.get? k <;> rfl
      | some t => rfl
    · congr 1
      funext d
      simp only [rewind, mend, Keyed.get?_insertNew, if_neg hkh]
  stillborn := ht.stillborn

/-- A record changes in parts that were kept. -/
theorem put {h : Handle} {c c' : Component} (ht : Traced r₀ r u former) (hc : r.get? h = some c)
    (hid : c'.id = c.id) (hh : c'.handle = c.handle) (hret : c'.retired = c.retired)
    (hrewind : rewind u former h c' = rewind u former h c) :
    Traced r₀ (r.put h c') u former where
  arena := ht.arena.put hc hid hh hret
  undo := ht.undo
  size := ht.size
  grown := by
    rw [length_put]
    exact ht.grown
  spare := ht.spare
  queue := ht.queue
  seen := ht.seen
  retired := ht.retired
  capacity := ht.capacity
  states_sorted := ht.states_sorted
  trees := ht.trees
  born := ht.born
  dropped := by
    have hd := ht.dropped
    refine ⟨hd.apart, ?_, ?_, hd.unlisted, hd.live⟩
    · intro d hmem
      rw [length_put]
      exact hd.slot d hmem
    · intro d hmem
      have hne : d.handle ≠ h := by
        rintro rfl
        rw [hd.empty d hmem] at hc
        cases hc
      rw [get?_put (lt_of_get? hc), if_neg hne]
      exact hd.empty d hmem
  records k hk := by
    rw [← ht.records k hk, get?_put (lt_of_get? hc)]
    by_cases hkh : k = h
    · subst hkh
      rw [if_pos rfl, hc]
      simp [hrewind]
    · rw [if_neg hkh]
  stillborn := ht.stillborn

/-- The undo record after a handle was given out. -/
def bearing (u : Undo) (h : Handle) : Undo := { u with born := u.born ++ [h] }

theorem create {id : String} (ht : Traced r₀ r u former) (hdropped : u.dropped = [])
    (hid : r.handle? id = none) (kind : KindRef) (assigns : Assigns) (owner : Option StreamEntry) :
    Traced r₀ (r.create id kind assigns owner) (bearing u r.takeHandle.1) former := by
  have hget := get?_create ht.arena.spare_empty id kind assigns owner
  have hnone := get?_takeHandle ht.arena.spare_empty
  have harena := ht.arena.create hid kind assigns owner
  have hgrown := length_le_create r id kind assigns owner
  refine ⟨harena, ?_, ht.size, Nat.le_trans ht.grown hgrown, ht.spare, ht.queue, ht.seen, ?_, ?_,
    ht.states_sorted, ht.trees, ?_, ?_, ?_, ?_⟩
  · rw [create_rest, ht.undo]
    rfl
  · rw [create_rest]
    exact ht.retired
  · rw [create_rest]
    exact ht.capacity
  · intro h hh
    rcases List.mem_append.mp hh with hh | hh
    · exact ht.born h hh
    · obtain rfl := List.mem_singleton.mp hh
      -- whether the pass has given the handle out before or not, no record had it when it opened
      by_cases hb : r.takeHandle.1 ∈ u.born
      · exact ht.born _ hb
      · rw [← ht.records _ hb, hnone, hdropped]
        rfl
  · change Revivable _ u.dropped
    rw [hdropped]
    exact .nil _
  · intro h hh
    have hb : h ∉ u.born := fun hin => hh (List.mem_append_left _ hin)
    have hne : h ≠ r.takeHandle.1 := fun heq => hh (heq ▸ List.mem_append_right _ (by simp))
    rw [← ht.records h hb, hget, if_neg hne]
    rfl
  · rw [create_rest]
    exact ht.stillborn

/-- **Every edit leaves a trace.** -/
theorem edit {kinds : Kinds} {Good : Value → Prop} {r' : Roster} (ht : Traced r₀ r u former)
    (hdropped : u.dropped = []) (he : Edit kinds Good r r') :
    ∃ u', Traced r₀ r' u' former ∧ u'.dropped = [] ∧
      ∀ h, u.states.get? h ≠ none → u'.states.get? h ≠ none := by
  have hkeeping (c : Component) (h : Handle) (hh : u.states.get? h ≠ none) :
      (keeping u c).states.get? h ≠ none := by
    unfold keeping
    rw [Keyed.get?_insertNew]
    split
    · exact Option.some_ne_none _
    · exact hh
  cases he with
  | marks seen drawn => exact ⟨u, ht.marks seen drawn r.queue, hdropped, fun _ h => h⟩
  | @keep _ c hc => exact ⟨keeping u c, ht.keep hc, hdropped, hkeeping c⟩
  | @rewrite h c props owner seen queue hc _ _ =>
      have hkept := states_keeping u (ht.arena.handle_eq h c hc)
      have hput : Traced r₀ (r.handOver kinds h c props owner) (keeping u c) former := by
        refine (ht.keep hc).put hc rfl rfl rfl ?_
        -- what the props changed is put back from what was kept
        unfold rewind mend
        cases hs : (keeping u c).states.get? h with
        | none => exact absurd hs hkept
        | some state => rfl
      exact ⟨keeping u c, hput.marks seen r.drawn queue, hdropped, hkeeping c⟩
  | @create id kind props a b owner seen queue hid _ _ _ _ _ =>
      have hnew := ht.create hdropped hid kind b owner
      exact ⟨_, hnew.marks seen _ queue, hdropped, fun _ h => h⟩

/-- A component that has not been retired is noted as stillborn. -/
theorem fail {h : Handle} {c : Component} (ht : Traced r₀ r u former) (hc : r.get? h = some c)
    (hlive : c.retired = false) :
    Traced r₀ { r with stillborn := r.stillborn.insert h } u former where
  arena := ht.arena.congr rfl rfl rfl rfl rfl
  undo := ht.undo
  size := ht.size
  grown := ht.grown
  spare := ht.spare
  queue := ht.queue
  seen := ht.seen
  retired := ht.retired
  capacity := ht.capacity
  states_sorted := ht.states_sorted
  trees := ht.trees
  born := ht.born
  dropped := ht.dropped.congr rfl rfl
  records := ht.records
  stillborn k hk := by
    rcases KeySet.mem_insert.mp hk with rfl | hk
    · exact (ht.arena.not_retired_iff hc).mpr hlive
    · exact ht.stillborn k hk

/-! ## A whole pass -/

/-- Traced while no record was dropped yet, and with the state of the component that is being
rendered kept. -/
def Whole (r₀ : Roster) (cur : Option Handle) (r : Roster) (former : FormerTrees) : Prop :=
  ∃ u, Traced r₀ r u former ∧ u.dropped = [] ∧ ∀ h, cur = some h → u.states.get? h ≠ none

/-- **Draining the queue leaves a trace.** -/
theorem steady (r₀ : Roster) (host : Host) :
    Steady host (fun _ => True) (fun _ _ => True) (Whole r₀) where
  good_str _ := trivial
  arena hinv := by
    obtain ⟨u, ht, -, -⟩ := hinv
    exact ht.arena
  edit hinv he := by
    obtain ⟨u, ht, hdropped, hcur⟩ := hinv
    obtain ⟨u', ht', hdropped', hkept⟩ := ht.edit hdropped he
    exact ⟨u', ht', hdropped', fun h hh => hkept h (hcur h hh)⟩
  skip hinv _ _ := by
    obtain ⟨u, ht, hdropped, -⟩ := hinv
    exact ⟨u, ht.marks _ _ _, hdropped, fun _ h => by cases h⟩
  start {r former h queue c} hinv _ hc _ := by
    obtain ⟨u, ht, hdropped, -⟩ := hinv
    refine ⟨keeping u c, (ht.marks r.seen r.drawn queue).keep hc, hdropped, ?_⟩
    rintro k ⟨⟩
    exact states_keeping u (ht.arena.handle_eq h c hc)
  yields _ _ hP :=
    (Pass.yields_template hP (Scope.all_true _)
      (Template.makes_true _) _).mono fun _ _ => trivial
  rendered {r former h c tree} hinv hc _ _ := by
    obtain ⟨u, ht, hdropped, hcur⟩ := hinv
    -- the state was kept when the rendering started, and the tree has just been noted
    refine ⟨u, (ht.note hc).put hc rfl rfl rfl ?_, hdropped, fun _ h => by cases h⟩
    unfold rewind mend
    cases hs : u.states.get? h with
    | none => exact absurd hs (hcur h rfl)
    | some state =>
        rw [Keyed.get?_insertNew, if_pos rfl]
        rfl
  failed {r former h c} hinv hc hlive := by
    obtain ⟨u, ht, hdropped, -⟩ := hinv
    split
    · exact ⟨u, ht.fail hc hlive, hdropped, fun _ h => by cases h⟩
    · exact ⟨u, ht, hdropped, fun _ h => by cases h⟩

end Traced

end ViewSync.Roster
