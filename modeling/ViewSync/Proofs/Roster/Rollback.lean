import ViewSync.Proofs.Roster.Trace

/-!
# Undoing brings the roster back

After the queue is drained, components whose first render failed are dropped and trees are blanked.
Both leave a trace as well, so that a pass may fail at any point: undoing it then gives the very
roster that the pass was opened on.
-/

namespace ViewSync.Roster

/-! ## Dropping records -/

theorem drop_of_get? {r : Roster} {h : Handle} {c : Component} (hc : r.get? h = some c) :
    r.drop h =
      { (r.vacate h).recordUndo fun u => { u with dropped := u.dropped ++ [c] } with
        ids := r.ids.erase c.id
        seen := r.seen.erase h
        spare := r.spare.insert h } := by
  unfold drop
  rw [hc]
  rfl

theorem get?_drop {r : Roster} {h : Handle} {c : Component} (hc : r.get? h = some c) (k : Handle) :
    (r.drop h).get? k = if k = h then none else r.get? k := by
  rw [drop_of_get? hc]
  exact get?_vacate r h k

/-- A record that is dropped may come back, beside those that were dropped before. -/
theorem Revivable.drop {r : Roster} {h : Handle} {c : Component} {cs : List Component}
    (hcs : Revivable r cs) (hc : r.get? h = some c) (hh : c.handle = h)
    (hid : r.ids.get? c.id = some h) (hlive : c.retired = false) :
    Revivable (r.drop h) (cs ++ [c]) := by
  have hdrop := drop_of_get? hc
  have hapart := hcs.apart_of_get? hc hid
  have hlen : (r.drop h).slots.length = r.slots.length := by
    rw [hdrop]
    exact length_vacate r h
  refine ⟨List.pairwise_append.mpr ⟨hcs.apart, List.pairwise_singleton _ _, fun d hd e he => ?_⟩,
    fun d hd => ?_, fun d hd => ?_, fun d hd => ?_, fun d hd => ?_⟩
  · obtain rfl := List.mem_singleton.mp he
    rw [hh]
    exact hapart d hd
  · rw [hlen]
    rcases List.mem_append.mp hd with hd | hd
    · exact hcs.slot d hd
    · obtain rfl := List.mem_singleton.mp hd
      rw [hh]
      exact lt_of_get? hc
  · rw [get?_drop hc]
    rcases List.mem_append.mp hd with hd | hd
    · rw [if_neg (hapart d hd).1]
      exact hcs.empty d hd
    · obtain rfl := List.mem_singleton.mp hd
      rw [if_pos hh]
  · rw [hdrop]
    change (r.ids.erase c.id).get? d.id = none
    rw [Keyed.get?_erase]
    rcases List.mem_append.mp hd with hd | hd
    · rw [if_neg (hapart d hd).2]
      exact hcs.unlisted d hd
    · obtain rfl := List.mem_singleton.mp hd
      rw [if_pos rfl]
  · rcases List.mem_append.mp hd with hd | hd
    · exact hcs.live d hd
    · obtain rfl := List.mem_singleton.mp hd
      exact hlive

theorem Arena.drop {r : Roster} {h : Handle} {c : Component} (hr : r.Arena)
    (hc : r.get? h = some c) (hlive : c.retired = false) : (r.drop h).Arena := by
  have hdrop := drop_of_get? hc
  have hget := get?_drop hc
  have hlinked : Linked { r.vacate h with ids := r.ids.erase c.id } :=
    Linked.vacate hr.ids_iff hc hlive
  have hnot : h ∉ r.retired := (hr.not_retired_iff hc).mpr hlive
  refine ⟨?_, ?_, ?_, ?_, ?_, ?_, ?_⟩
  · intro k d hd
    rw [hget] at hd
    split at hd
    · cases hd
    · exact hr.handle_eq k d hd
  · rw [hdrop]
    exact Keyed.sorted_erase hr.ids_sorted _
  · rw [hdrop]
    exact hlinked
  · rw [hdrop]
    exact KeySet.sorted_insert hr.spare_sorted h
  · intro k hk
    rw [hdrop] at hk ⊢
    change (r.slots.set h none)[k]? = some none
    rcases KeySet.mem_insert.mp hk with rfl | hk
    · rw [List.getElem?_set_self (lt_of_get? hc)]
    · have hne : h ≠ k := fun heq => hr.not_spare hc (heq ▸ hk)
      rw [List.getElem?_set_ne hne]
      exact hr.spare_empty k hk
  · intro k
    have hretired : (r.drop h).retired = r.retired := by rw [hdrop]; rfl
    rw [hretired, hget]
    by_cases hk : k = h
    · subst hk
      simp [hnot]
    · rw [if_neg hk]
      exact hr.retired_iff k
  · rw [hdrop]
    exact hr.told

namespace Traced

variable {r₀ r : Roster} {u : Undo} {former : FormerTrees}

theorem drop {h : Handle} {c : Component} (ht : Traced r₀ r u former) (hc : r.get? h = some c)
    (hlive : c.retired = false) :
    Traced r₀ (r.drop h) { u with dropped := u.dropped ++ [c] } former := by
  have hdrop := drop_of_get? hc
  have hh := ht.arena.handle_eq h c hc
  have hid : r.ids.get? c.id = some h := (ht.arena.ids_iff c.id h).mpr ⟨c, hc, rfl, hlive⟩
  refine ⟨ht.arena.drop hc hlive, ?_, ht.size, ?_, ht.spare, ht.queue, ht.seen, ?_, ?_,
    ht.states_sorted, ht.trees, ht.born, ht.dropped.drop hc hh hid hlive, fun k hk => ?_,
    fun k hk => ?_⟩
  · rw [hdrop]
    change r.undo.map _ = _
    rw [ht.undo]
    rfl
  · rw [hdrop]
    change _ ≤ (r.vacate h).slots.length
    rw [length_vacate]
    exact ht.grown
  · rw [hdrop]
    exact ht.retired
  · rw [hdrop]
    exact ht.capacity
  · rw [get?_drop hc, ← ht.records k hk]
    change (Option.or _ ((u.dropped ++ [c]).find? (·.handle = k))).map (rewind u former k) = _
    rw [List.find?_append]
    by_cases hkh : k = h
    · -- it was in its slot, and is the only one of its handle that was dropped
      subst hkh
      have hnone : u.dropped.find? (·.handle = k) = none := by
        rw [List.find?_eq_none]
        intro d hd
        simpa using (ht.dropped.apart_of_get? hc hid d hd).1
      rw [hnone, hc]
      simp [hh]
    · have hne : c.handle ≠ k := fun heq => hkh (heq.symm.trans hh)
      rw [if_neg hkh]
      simp [hne]
  · rw [hdrop] at hk ⊢
    exact ht.stillborn k hk

theorem retired_drop (r : Roster) (h : Handle) : (r.drop h).retired = r.retired := by
  unfold Roster.drop
  cases r.get? h <;> rfl

theorem drop_all {hs : List Handle} (ht : Traced r₀ r u former)
    (hlive : ∀ h ∈ hs, h ∉ r.retired) :
    ∃ u', Traced r₀ (hs.foldl Roster.drop r) u' former := by
  induction hs generalizing r u with
  | nil => exact ⟨u, ht⟩
  | cons h hs ih =>
      have hrest : ∀ k ∈ hs, k ∉ (r.drop h).retired := by
        intro k hk
        rw [retired_drop]
        exact hlive k (List.mem_cons_of_mem _ hk)
      rw [List.foldl_cons]
      cases hc : r.get? h with
      | none =>
          have hskip : r.drop h = r := by
            unfold Roster.drop
            rw [hc]
          rw [hskip] at hrest ⊢
          exact ih ht hrest
      | some c =>
          have hret : c.retired = false :=
            (ht.arena.not_retired_iff hc).mp (hlive h List.mem_cons_self)
          exact ih (ht.drop hc hret) hrest

theorem dropStillborn (ht : Traced r₀ r u former) :
    ∃ u', Traced r₀ r.dropStillborn u' former :=
  ht.drop_all fun h hh => ht.stillborn h hh

/-! ## Patches -/

/-- Making patches changes trees only, of components whose former tree was noted. -/
theorem patches {rest : FormerTrees} (ht : Traced r₀ r u former)
    (hrest : ∀ e ∈ rest, former.get? e.1 ≠ none) :
    Traced r₀ (r.patches rest).2 u former := by
  induction rest generalizing r with
  | nil => exact ht
  | cons e rest ih =>
      obtain ⟨h, before⟩ := e
      have hnoted := hrest (h, before) List.mem_cons_self
      have hrest' : ∀ e ∈ rest, former.get? e.1 ≠ none := fun e he =>
        hrest e (List.mem_cons_of_mem _ he)
      unfold Roster.patches
      cases hc : r.get? h with
      | none => exact ih ht hrest'
      | some c =>
          cases htree : c.tree with
          | none => simpa only [htree] using ih ht hrest'
          | some tree =>
              simp only [htree]
              have hput : Traced r₀ (r.put h { c with tree := some (r.blankStillborn tree) }) u
                  former := by
                refine ht.put hc rfl rfl rfl ?_
                unfold rewind mend
                cases hf : former.get? h with
                | none => exact absurd hf hnoted
                | some t =>
                    cases u.states.get? h <;> rfl
              split
              · exact hput
              · exact ih hput hrest'

/-! ## Undoing -/

theorem get?_keepTrees (former trees : FormerTrees) (k : Handle) :
    (former.foldl (fun trees e => trees.insertNew e.1 e.2) trees).get? k
      = (trees.get? k).or (former.get? k) := by
  induction former generalizing trees with
  | nil => simp [Keyed.get?]
  | cons e former ih =>
      rw [List.foldl_cons, ih, Keyed.get?_insertNew]
      by_cases hk : k = e.1
      · subst hk
        cases h : trees.get? e.1 <;> simp [Keyed.get?]
      · simp [hk, Keyed.get?, Ne.symm hk]

theorem sorted_keepTrees (former : FormerTrees) {trees : FormerTrees} (hs : trees.Sorted) :
    (former.foldl (fun trees e => trees.insertNew e.1 e.2) trees : FormerTrees).Sorted := by
  induction former generalizing trees with
  | nil => exact hs
  | cons e former ih => exact ih (Keyed.sorted_insertNew hs e.1 e.2)

theorem undoPass_eq {r : Roster} {u : Undo} (hu : r.undo = some u) :
    r.undoPass =
      let r := u.dropped.foldl (revive u.born) r
      let r := u.born.foldl takeBack r
      let r := u.states.foldl (fun r e => r.amend e.1 (withState e.2)) r
      let r := u.trees.foldl (fun r e => r.amend e.1 (withTree e.2)) r
      { r with
        slots := r.slots.take u.size
        spare := u.spare
        queue := u.queue
        seen := u.seen
        drawn := []
        stillborn := []
        undo := none } := by
  unfold undoPass
  rw [hu]
  rfl

end Traced

/-! ## What undoing comes to -/

section Undone

variable {r₀ r : Roster} {u : Undo}

theorem length_revive (born : List Handle) (r : Roster) (c : Component) :
    (revive born r c).slots.length = r.slots.length := by
  unfold revive
  split
  · rfl
  · exact length_put r _ _

/-- The roster after the rounds that bring records back and take handles back. -/
def recovered (r : Roster) (u : Undo) : Roster :=
  u.born.foldl takeBack (u.dropped.foldl (revive u.born) r)

theorem length_recovered (r : Roster) (u : Undo) :
    (r.recovered u).slots.length = r.slots.length := by
  refine List.foldlRecOn (motive := fun r' : Roster => r'.slots.length = r.slots.length) _ _ ?_
    fun r' hr' h _ => ?_
  · refine List.foldlRecOn (motive := fun r' : Roster => r'.slots.length = r.slots.length) _ _ rfl
      fun r' hr' c _ => ?_
    exact (length_revive u.born r' c).trans hr'
  · unfold takeBack
    split
    · exact (length_vacate r' h).trans hr'
    · exact hr'

theorem sameRest_recovered (r : Roster) (u : Undo) : SameRest r (r.recovered u) := by
  obtain ⟨hret, htold, hcap⟩ := SameRest.foldl (sameRest_revive u.born) u.dropped r
  obtain ⟨hret', htold', hcap'⟩ := SameRest.foldl sameRest_takeBack u.born
    (u.dropped.foldl (revive u.born) r)
  exact ⟨hret'.trans hret, htold'.trans htold, hcap'.trans hcap⟩

/-- What undoing comes to, of each part of the roster. -/
theorem undoPass_spec (hu : r.undo = some u) (hstates : u.states.Sorted)
    (htrees : u.trees.Sorted) :
    (∀ k, r.undoPass.get? k =
      if k < u.size then ((r.recovered u).get? k).map (rewind u u.trees k) else none) ∧
    r.undoPass.slots.length = min u.size (r.recovered u).slots.length ∧
    r.undoPass = { r with
      slots := r.undoPass.slots
      ids := (r.recovered u).ids
      spare := u.spare
      queue := u.queue
      seen := u.seen
      drawn := []
      stillborn := []
      undo := none } := by
  have hrest := sameRest_recovered r u
  rw [Traced.undoPass_eq hu]
  dsimp only
  change SameRest r (u.born.foldl takeBack (u.dropped.foldl (revive u.born) r)) at hrest
  unfold recovered
  generalize u.born.foldl takeBack (u.dropped.foldl (revive u.born) r) = r₂ at *
  obtain ⟨hids₃, hlen₃, hget₃⟩ := amend_all withState hstates r₂
  have hrest₃ := SameRest.foldl (fun r e => sameRest_amend r e.1 (withState e.2)) u.states r₂
  generalize u.states.foldl (fun r e => r.amend e.1 (withState e.2)) r₂ = r₃ at *
  obtain ⟨hids₄, hlen₄, hget₄⟩ := amend_all withTree htrees r₃
  have hrest₄ := SameRest.foldl (fun r e => sameRest_amend r e.1 (withTree e.2)) u.trees r₃
  generalize u.trees.foldl (fun r e => r.amend e.1 (withTree e.2)) r₃ = r₄ at *
  refine ⟨fun k => ?_, ?_, ?_⟩
  · have htake : ((r₄.slots.take u.size)[k]?).join = if k < u.size then r₄.get? k else none := by
      rw [List.getElem?_take]
      split <;> rfl
    refine htake.trans ?_
    split
    · rw [hget₄, hget₃, Option.map_map]
      rfl
    · rfl
  · exact List.length_take.trans (by rw [hlen₄, hlen₃])
  · simp only [Roster.mk.injEq, true_and]
    exact ⟨hids₄.trans hids₃, hrest₄.1.trans (hrest₃.1.trans hrest.1),
      hrest₄.2.1.trans (hrest₃.2.1.trans hrest.2.1), hrest₄.2.2.trans (hrest₃.2.2.trans hrest.2.2)⟩

/-- If the records and the ids that are recovered are those of another roster, its slots and its
table of ids come back. Slots that were added in the pass are empty by then, and are cut off. -/
theorem undoPass_eq_of_recovered (hu : r.undo = some u) (hstates : u.states.Sorted)
    (htrees : u.trees.Sorted) (hsize : u.size = r₀.slots.length)
    (hgrown : r₀.slots.length ≤ r.slots.length)
    (hget : ∀ k, ((r.recovered u).get? k).map (rewind u u.trees k) = r₀.get? k)
    (hids : (r.recovered u).ids = r₀.ids) :
    r.undoPass = { r with
      slots := r₀.slots
      ids := r₀.ids
      spare := u.spare
      queue := u.queue
      seen := u.seen
      drawn := []
      stillborn := []
      undo := none } := by
  obtain ⟨hrecords, hlen, heq⟩ := undoPass_spec hu hstates htrees
  have hslots : r.undoPass.slots = r₀.slots := by
    refine slots_eq ?_ fun k => ?_
    · rw [hlen, length_recovered, hsize, Nat.min_eq_left hgrown]
    · rw [hrecords, hget, hsize]
      split
      · rfl
      · next hge => simp [get?, List.getElem?_eq_none (Nat.le_of_not_lt hge)]
  rw [heq, hslots, hids]

/-- What a record was before the pass has its id, and is retired if it is. -/
theorem rewind_keeps (u : Undo) (former : FormerTrees) (h : Handle) (c : Component) :
    (rewind u former h c).id = c.id ∧ (rewind u former h c).retired = c.retired := by
  unfold rewind mend
  cases u.states.get? h <;> cases former.get? h <;> exact ⟨rfl, rfl⟩

end Undone

namespace Traced

variable {r₀ r : Roster} {u : Undo} {former : FormerTrees}

/-- **Undoing a pass gives the roster that it was opened on.** -/
theorem undoPass_keepTrees (hr₀ : Resting r₀) (ht : Traced r₀ r u former) :
    (r.keepTrees former).undoPass = r₀ := by
  let trees : FormerTrees := former.foldl (fun trees e => trees.insertNew e.1 e.2) u.trees
  have htrees (k : Handle) : trees.get? k = former.get? k := by
    simp only [trees, get?_keepTrees, ht.trees, Keyed.get?, Option.none_or]
  have hsorted : trees.Sorted := by
    refine sorted_keepTrees former ?_
    rw [ht.trees]
    exact List.Pairwise.nil
  have hundo : (r.keepTrees former).undo = some { u with trees } := by
    change r.undo.map _ = _
    rw [ht.undo]
    rfl
  have hdropped : Revivable (r.keepTrees former) u.dropped := ht.dropped.congr rfl rfl
  obtain ⟨hlinked, hrevived, -, hborn, hout⟩ :=
    revive_all u.born (r := r.keepTrees former) ht.arena.ids_iff ht.arena.ids_sorted hdropped
  have hlive : ∀ h ∈ u.born, ∀ c,
      (u.dropped.foldl (revive u.born) (r.keepTrees former)).get? h = some c →
        c.retired = false := by
    intro h hh c hc
    rw [hborn h hh] at hc
    -- what was retired before the pass had a record, and this handle was not in use
    refine (ht.arena.not_retired_iff hc).mp fun hret => ?_
    rw [ht.retired, hr₀.arena.retired_iff, ht.born h hh] at hret
    obtain ⟨d, hd, -⟩ := hret
    cases hd
  obtain ⟨hlinked, hrecovered, -⟩ := takeBack_all hlinked hrevived hlive
  have hget (h : Handle) : (((r.keepTrees former).recovered { u with trees }).get? h).map
      (rewind { u with trees } trees h) = r₀.get? h := by
    rw [recovered, get?_takeBack_all]
    by_cases hh : h ∈ u.born
    · rw [if_pos hh, ht.born h hh]
      rfl
    · rw [if_neg hh, hout h hh, ← ht.records h hh]
      congr 1
      funext c
      simp only [rewind, mend, htrees]
  have hids : ((r.keepTrees former).recovered { u with trees }).ids = r₀.ids :=
    hlinked.ids_eq hr₀.arena.ids_iff hrecovered hr₀.arena.ids_sorted
      (rewind_keeps { u with trees } trees) hget
  rw [undoPass_eq_of_recovered hundo ht.states_sorted hsorted ht.size ht.grown hget hids]
  have hrest : { r₀ with drawn := [], stillborn := [], undo := none } = r₀ := by
    rw [← hr₀.drawn, ← hr₀.stillborn, ← hr₀.undo]
  rw [← hrest]
  simp only [Roster.mk.injEq, true_and]
  exact ⟨ht.spare, ht.retired, ht.arena.told.trans hr₀.arena.told.symm, ht.seen, ht.queue,
    ht.capacity⟩

end Traced

end ViewSync.Roster
