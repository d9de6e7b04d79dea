import ViewSync.Proofs.Roster.Resting

/-!
# Following trees

Whatever handles are followed, all that their trees refer to is seen afterwards, and all that the
trees of these refer to, and so on; only what had been seen before is not followed again. The rounds
do not run out: every round but the last sees a handle with a tree that had not been seen, and there
are no more such handles than there are slots.
-/

namespace ViewSync.Roster

variable {tree? : Handle → Option Tree} {size : Nat}

/-- What the tree of a component points at. -/
def pointedBy (r : Roster) (h : Handle) : List Handle := ((r.tree? h).map Tree.handles).getD []

theorem mem_pointedBy {r : Roster} {h k : Handle} :
    h ∈ r.pointedBy k ↔ ∃ t, r.tree? k = some t ∧ h ∈ t.handles := by
  unfold pointedBy
  cases r.tree? k with
  | none => simp
  | some t => simp

/-- What a component leads to: itself, what a tree of it refers to, what trees of those refer to,
and so on, where `has` tells the trees of a component. -/
inductive Leads (has : Handle → Tree → Prop) (h : Handle) : Handle → Prop where
  | self : Leads has h h
  | step {k k' : Handle} {t : Tree} : Leads has h k → has k t → k' ∈ t.handles → Leads has h k'

theorem Leads.mono {has has' : Handle → Tree → Prop} {h k : Handle} (hl : Leads has h k)
    (hmono : ∀ k t, has k t → has' k t) : Leads has' h k := by
  induction hl with
  | self => exact .self
  | step _ ht hin ih => exact ih.step (hmono _ _ ht) hin

/-- All on the way is led to as well. -/
theorem Leads.along {has : Handle → Tree → Prop} {h k : Handle} (hl : Leads has h k) :
    Leads (fun m t => Leads has h m ∧ has m t) h k := by
  induction hl with
  | self => exact .self
  | step hl ht hin ih => exact ih.step ⟨hl, ht⟩ hin

/-- What leads nowhere but to a set leads there from within it. -/
theorem Leads.within {has : Handle → Tree → Prop} {P : Handle → Prop} {h k : Handle}
    (hl : Leads has h k) (hclosed : ∀ k t, P k → has k t → ∀ k' ∈ t.handles, P k') (hh : P h) :
    P k := by
  induction hl with
  | self => exact hh
  | step _ ht hin ih => exact hclosed _ _ ih ht _ hin

/-- The handles below a bound that have a tree and have not been seen. -/
def unseen (tree? : Handle → Option Tree) (size : Nat) (seen : KeySet Handle) : List Handle :=
  (List.range size).filter fun h => (tree? h).isSome && h ∉ seen

theorem mem_unseen (hsize : ∀ h, tree? h ≠ none → h < size) {seen : KeySet Handle} {h : Handle} :
    h ∈ unseen tree? size seen ↔ tree? h ≠ none ∧ h ∉ seen := by
  unfold unseen
  rw [List.mem_filter, List.mem_range]
  simp only [Bool.and_eq_true, Option.isSome_iff_ne_none, decide_eq_true_eq]
  exact ⟨fun hin => hin.2, fun hin => ⟨hsize h hin.1, hin⟩⟩

/-- When more is seen, less is left. -/
theorem length_unseen_lt (hsize : ∀ h, tree? h ≠ none → h < size) {seen seen' : KeySet Handle}
    (hsub : ∀ h ∈ seen, h ∈ seen') {h : Handle} (htree : tree? h ≠ none) (hnew : h ∉ seen)
    (hseen : h ∈ seen') : (unseen tree? size seen').length < (unseen tree? size seen).length := by
  have hsublist : (unseen tree? size seen').Sublist (unseen tree? size seen) := by
    have hfilter : unseen tree? size seen' = (unseen tree? size seen).filter (· ∉ seen') := by
      unfold unseen
      rw [List.filter_filter]
      refine List.filter_congr fun k _ => ?_
      by_cases hin : k ∈ seen'
      · simp [hin]
      · simp [hin, mt (hsub k) hin]
    rw [hfilter]
    exact List.filter_sublist
  refine Nat.lt_of_le_of_ne hsublist.length_le fun hlen => ?_
  have hin : h ∈ unseen tree? size seen' := by
    rw [hsublist.eq_of_length hlen]
    exact (mem_unseen hsize).mpr ⟨htree, hnew⟩
  exact ((mem_unseen hsize).mp hin).2 hseen

/-- What is seen in the end: what was seen before, what was followed, and all that the trees of
those refer to which had not been seen. -/
structure Followed (tree? : Handle → Option Tree) (seen : KeySet Handle) (frontier : List Handle)
    (seen' : KeySet Handle) : Prop where
  /-- What was seen is seen. -/
  before : ∀ h ∈ seen, h ∈ seen'
  /-- What was followed is seen. -/
  frontier : ∀ h ∈ frontier, h ∈ seen'
  /-- Of what is newly seen, all that its tree refers to is seen. -/
  closed : ∀ h ∈ seen', h ∉ seen → ∀ t, tree? h = some t → ∀ k ∈ t.handles, k ∈ seen'

theorem reach_nil (tree? : Handle → Option Tree) (n : Nat) (seen : KeySet Handle) :
    reach tree? n seen [] = seen := by
  cases n <;> rfl

theorem followed_nil (seen : KeySet Handle) : Followed tree? seen [] seen :=
  ⟨fun _ h => h, fun _ h => (by cases h), fun _ hin hout => absurd hin hout⟩

theorem followed_reach (hsize : ∀ h, tree? h ≠ none → h < size) {n : Nat} {seen : KeySet Handle}
    {frontier : List Handle} (hn : (unseen tree? size seen).length ≤ n) :
    Followed tree? seen frontier (reach tree? n seen frontier) := by
  induction n generalizing seen frontier with
  | zero =>
      cases frontier with
      | nil => exact followed_nil seen
      | cons k ks =>
          change Followed tree? seen (k :: ks) (seen.insertAll (k :: ks))
          refine ⟨fun h hh => mem_insertAll.mpr (.inl hh), fun h hh => mem_insertAll.mpr (.inr hh),
            fun h _ hout t ht => ?_⟩
          -- nothing with a tree is left unseen
          have hin : h ∈ unseen tree? size seen :=
            (mem_unseen hsize).mpr ⟨by rw [ht]; exact Option.some_ne_none t, hout⟩
          rw [List.length_eq_zero_iff.mp (Nat.le_zero.mp hn)] at hin
          cases hin
  | succ n ih =>
      cases frontier with
      | nil => exact followed_nil seen
      | cons k ks =>
          change Followed tree? seen (k :: ks) (reach tree? n (seen.insertAll
            (KeySet.insertAll [] ((k :: ks).filter (· ∉ seen)))) _)
          generalize hfresh : KeySet.insertAll [] ((k :: ks).filter (· ∉ seen)) = fresh
          have hmem (h : Handle) : h ∈ fresh ↔ h ∈ k :: ks ∧ h ∉ seen := by
            rw [← hfresh, mem_insertAll]
            simp
          have hseen (h : Handle) : h ∈ seen.insertAll fresh ↔ h ∈ seen ∨ h ∈ k :: ks := by
            rw [mem_insertAll, hmem]
            by_cases hin : h ∈ seen <;> simp [hin]
          have hnew {h : Handle} (hin : h ∈ seen.insertAll fresh) (hout : h ∉ seen) : h ∈ fresh :=
            (mem_insertAll.mp hin).resolve_left hout
          have hchildren {h : Handle} (hin : h ∈ fresh) {t : Tree} (ht : tree? h = some t) :
              ∀ x ∈ t.handles, x ∈ fresh.flatMap fun h => ((tree? h).map Tree.handles).getD [] := by
            intro x hx
            refine List.mem_flatMap.mpr ⟨h, hin, ?_⟩
            rw [ht]
            exact hx
          cases hnext : fresh.flatMap fun h => ((tree? h).map Tree.handles).getD [] with
          | nil =>
              rw [reach_nil]
              refine ⟨fun h hh => (hseen h).mpr (.inl hh), fun h hh => (hseen h).mpr (.inr hh),
                fun h hin hout t ht x hx => ?_⟩
              have hx := hchildren (hnew hin hout) ht x hx
              rw [hnext] at hx
              cases hx
          | cons y ys =>
              -- something that was seen in this round has a tree
              have hy : y ∈ fresh.flatMap fun h => ((tree? h).map Tree.handles).getD [] := by
                rw [hnext]
                exact List.mem_cons_self
              obtain ⟨h, hh, hyh⟩ := List.mem_flatMap.mp hy
              have htree : tree? h ≠ none := by
                intro hnone
                rw [hnone] at hyh
                cases hyh
              have hlt : (unseen tree? size (seen.insertAll fresh)).length <
                  (unseen tree? size seen).length :=
                length_unseen_lt hsize (fun h hh => (hseen h).mpr (.inl hh)) htree
                  ((hmem h).mp hh).2 (mem_insertAll.mpr (.inr hh))
              have hrest : Followed tree? (seen.insertAll fresh) (y :: ys)
                  (reach tree? n (seen.insertAll fresh) (y :: ys)) :=
                ih (Nat.le_of_lt_succ (Nat.lt_of_lt_of_le hlt hn))
              refine ⟨fun h hh => hrest.before h ((hseen h).mpr (.inl hh)),
                fun h hh => hrest.before h ((hseen h).mpr (.inr hh)),
                fun h hin hout t ht x hx => ?_⟩
              by_cases hin' : h ∈ seen.insertAll fresh
              · refine hrest.frontier x ?_
                rw [← hnext]
                exact hchildren (hnew hin' hout) ht x hx
              · exact hrest.closed h hin hin' t ht x hx

/-- **Following handles follows all that their trees refer to.** -/
theorem followed_followAll (r : Roster) (hs : List Handle) :
    Followed r.tree? r.seen hs (r.followAll hs).seen := by
  have hsize (h : Handle) (htree : r.tree? h ≠ none) : h < r.slots.length := by
    cases hc : r.get? h with
    | none =>
        unfold Roster.tree? at htree
        rw [hc] at htree
        exact absurd rfl htree
    | some c => exact lt_of_get? hc
  refine followed_reach hsize ?_
  have hle := List.length_filter_le (fun h => (r.tree? h).isSome && h ∉ r.seen)
    (List.range r.slots.length)
  rwa [List.length_range] at hle

end ViewSync.Roster
