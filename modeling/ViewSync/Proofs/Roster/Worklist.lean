import ViewSync.Proofs.Roster.Reach
import ViewSync.Proofs.Roster.Redrawing

/-!
# Following handles one at a time

`followAll` follows handles in rounds. They can be followed one at a time as well: the last handle
is taken off a list, and if it had not been seen, all that its tree refers to is put on the list.
The list may grow with every step. Still it is used up in the end, even where trees refer to each
other, to themselves or to handles without a record, since no tree is put on the list twice.

What counts is what was seen together with all that the list leads to by way of handles that were
not. A step leaves this as it is, and so does a round; and once the list is empty, it is what was
seen. So either way the same handles are seen, and no others.
-/

namespace ViewSync.Roster

variable {r r' : Roster} {pending pending' : List Handle} {h k : Handle}

/-- Take the next handle off a list, which is its last one. If it had not been seen, it is now, and
all that its tree refers to is put on the list. -/
def followNext (r : Roster) (pending : List Handle) : Option (Roster × List Handle) :=
  pending.getLast?.map fun h =>
    if h ∈ r.seen then (r, pending.dropLast)
    else (r.see h, pending.dropLast ++ r.pointedBy h)

/-- Follow handles one at a time until none is left, with fuel for so many of them. -/
def followEach : Nat → Roster → List Handle → Option Roster
  | fuel, r, pending =>
    match r.followNext pending, fuel with
    | none, _ => some r
    | some _, 0 => none
    | some (r, pending), fuel + 1 => followEach fuel r pending

/-- What has been seen once some handles were followed: what had been seen before, and all that they
lead to by way of handles that had not. -/
def Reaches (r : Roster) (hs : List Handle) (k : Handle) : Prop :=
  k ∈ r.seen ∨ ∃ b ∈ hs, Leads (fun h t => h ∉ r.seen ∧ r.tree? h = some t) b k

/-! ## What a step does -/

theorem eq_nil_of_followNext (hnext : r.followNext pending = none) : pending = [] :=
  List.getLast?_eq_none_iff.mp (Option.map_eq_none_iff.mp hnext)

theorem followNext_cases (hnext : r.followNext pending = some (r', pending')) :
    ∃ rest h, pending = rest ++ [h] ∧
      ((h ∈ r.seen ∧ r' = r ∧ pending' = rest) ∨
        (h ∉ r.seen ∧ r' = r.see h ∧ pending' = rest ++ r.pointedBy h)) := by
  obtain ⟨h, hlast, hstep⟩ := Option.map_eq_some_iff.mp hnext
  obtain ⟨rest, rfl⟩ := List.getLast?_eq_some_iff.mp hlast
  rw [List.dropLast_concat] at hstep
  refine ⟨rest, h, rfl, ?_⟩
  by_cases hold : h ∈ r.seen
  · rw [if_pos hold] at hstep
    obtain ⟨rfl, rfl⟩ := Prod.mk.inj hstep
    exact .inl ⟨hold, rfl, rfl⟩
  · rw [if_neg hold] at hstep
    obtain ⟨rfl, rfl⟩ := Prod.mk.inj hstep
    exact .inr ⟨hold, rfl, rfl⟩

/-! ## The list is used up -/

/-- What the trees of components refer to that have not been seen: all that may still be put on the
list. -/
def unfollowed (r : Roster) : List Handle :=
  ((List.range r.slots.length).filter (· ∉ r.seen)).flatMap r.pointedBy

theorem pointedBy_of_le (hle : r.slots.length ≤ h) : r.pointedBy h = [] := by
  have hnone : r.get? h = none := by
    unfold Roster.get?
    rw [List.getElem?_eq_none hle]
    rfl
  unfold pointedBy
  rw [tree?_of_none hnone]
  rfl

theorem perm_cons_filter_ne {ks : List Handle} (hnodup : ks.Nodup) (hin : h ∈ ks) :
    ks.Perm (h :: ks.filter (· ≠ h)) := by
  have herase : ks.erase h = ks.filter (· ≠ h) := by
    rw [hnodup.erase_eq_filter]
    exact List.filter_congr fun k _ => by by_cases hk : k = h <;> simp [hk]
  exact herase ▸ List.perm_cons_erase hin

/-- The tree of a handle that is seen for the first time is not put on the list again. -/
theorem length_unfollowed_see (hnew : h ∉ r.seen) :
    (r.see h).unfollowed.length + (r.pointedBy h).length = r.unfollowed.length := by
  generalize hks : (List.range r.slots.length).filter (· ∉ r.seen) = ks
  have hunfollowed : r.unfollowed = ks.flatMap r.pointedBy := by
    rw [← hks]
    rfl
  have hsee : (r.see h).unfollowed = (ks.filter (· ≠ h)).flatMap r.pointedBy := by
    rw [← hks, List.filter_filter]
    change ((List.range r.slots.length).filter (· ∉ r.seen.insert h)).flatMap r.pointedBy = _
    refine congrArg (List.flatMap r.pointedBy) (List.filter_congr fun k _ => ?_)
    simp [KeySet.mem_insert]
  rw [hsee, hunfollowed]
  by_cases hin : h ∈ ks
  · have hperm := perm_cons_filter_ne (hks ▸ List.nodup_range.filter _) hin
    have hlength := (hperm.flatMap_right r.pointedBy).length_eq
    rw [List.flatMap_cons, List.length_append] at hlength
    omega
  · -- it is beyond all records
    have hle : r.slots.length ≤ h := by
      refine Nat.le_of_not_lt fun hlt => ?_
      refine hin (hks ▸ List.mem_filter.mpr ⟨List.mem_range.mpr hlt, ?_⟩)
      simpa using hnew
    have hsame : ks.filter (· ≠ h) = ks :=
      List.filter_eq_self.mpr fun k hk => decide_eq_true fun heq => hin (heq ▸ hk)
    rw [hsame, pointedBy_of_le hle]
    rfl

/-- Each step leaves less to do, be it that the list gets shorter or that one tree less is to be
followed. -/
theorem length_followNext (hnext : r.followNext pending = some (r', pending')) :
    pending'.length + r'.unfollowed.length < pending.length + r.unfollowed.length := by
  obtain ⟨rest, h, rfl, ⟨-, rfl, rfl⟩ | ⟨hnew, rfl, rfl⟩⟩ := followNext_cases hnext
  · rw [List.length_append, List.length_singleton]
    omega
  · have hless := length_unfollowed_see hnew
    rw [List.length_append, List.length_append, List.length_singleton]
    omega

/-! ## What is reached stays the same -/

theorem reaches_nil : r.Reaches [] k ↔ k ∈ r.seen := by
  simp [Reaches]

/-- Some of the handles on a list are seen now, and what their trees refer to is on the new list. -/
structure Follows (r : Roster) (pending : List Handle) (r' : Roster) (pending' : List Handle) :
    Prop where
  /-- No tree is touched. -/
  tree? : ∀ k, r'.tree? k = r.tree? k
  /-- What was seen is seen. -/
  before : ∀ k ∈ r.seen, k ∈ r'.seen
  /-- What is newly seen was on the list. -/
  listed : ∀ k ∈ r'.seen, k ∉ r.seen → k ∈ pending
  /-- What was on the list is seen now, or on the new list. -/
  left : ∀ k ∈ pending, k ∈ r'.seen ∨ k ∈ pending'
  /-- What the tree of something newly seen refers to is on the new list. -/
  opened : ∀ k ∈ r'.seen, k ∉ r.seen → ∀ t, r.tree? k = some t → ∀ x ∈ t.handles, x ∈ pending'
  /-- Nothing else is on the new list. -/
  source : ∀ x ∈ pending', x ∈ pending ∨
    ∃ k ∈ pending, k ∉ r.seen ∧ ∃ t, r.tree? k = some t ∧ x ∈ t.handles

/-- **What is reached stays the same**, whether one handle was followed or all of them. -/
theorem Follows.reaches_iff (hf : Follows r pending r' pending') (k : Handle) :
    r'.Reaches pending' k ↔ r.Reaches pending k := by
  constructor
  · rintro (hk | ⟨b, hb, hl⟩)
    · by_cases hold : k ∈ r.seen
      · exact .inl hold
      · exact .inr ⟨k, hf.listed k hk hold, .self⟩
    · induction hl with
      | self =>
          rcases hf.source b hb with hb | ⟨x, hx, hnew, t, ht, hin⟩
          · exact .inr ⟨b, hb, .self⟩
          · exact .inr ⟨x, hx, Leads.self.step ⟨hnew, ht⟩ hin⟩
      | @step x y t _ hxt hy ih =>
          obtain ⟨hout, ht⟩ := hxt
          have hnew : x ∉ r.seen := fun hx => hout (hf.before x hx)
          obtain ⟨c, hc, hl⟩ := ih.resolve_left hnew
          exact .inr ⟨c, hc, hl.step ⟨hnew, (hf.tree? x).symm.trans ht⟩ hy⟩
  · rintro (hk | ⟨b, hb, hl⟩)
    · exact .inl (hf.before k hk)
    · -- along the way, the last of the handles seen just now is where the new list takes over
      induction hl with
      | self =>
          rcases hf.left b hb with hseen | hb
          · exact .inl hseen
          · exact .inr ⟨b, hb, .self⟩
      | @step x y t _ hxt hy ih =>
          obtain ⟨hnew, ht⟩ := hxt
          by_cases hx : x ∈ r'.seen
          · exact .inr ⟨y, hf.opened x hx hnew t ht y hy, .self⟩
          · obtain ⟨c, hc, hl⟩ := ih.resolve_left hx
            exact .inr ⟨c, hc, hl.step ⟨hx, (hf.tree? x).trans ht⟩ hy⟩

theorem followNext_follows (hnext : r.followNext pending = some (r', pending')) :
    Follows r pending r' pending' := by
  obtain ⟨rest, h, rfl, ⟨hold, rfl, rfl⟩ | ⟨hnew, rfl, rfl⟩⟩ := followNext_cases hnext
  · refine ⟨fun _ => rfl, fun _ hk => hk, fun k hk hout => absurd hk hout, ?_,
      fun k hk hout => absurd hk hout, fun x hx => .inl (List.mem_append_left _ hx)⟩
    intro k hk
    rcases List.mem_append.mp hk with hk | hk
    · exact .inr hk
    · obtain rfl := List.mem_singleton.mp hk
      exact .inl hold
  · have hsee {k : Handle} : k ∈ (r.see h).seen ↔ k = h ∨ k ∈ r.seen := KeySet.mem_insert
    refine ⟨fun _ => rfl, fun k hk => hsee.mpr (.inr hk), ?_, ?_, ?_, ?_⟩
    · intro k hk hout
      obtain rfl := (hsee.mp hk).resolve_right hout
      exact List.mem_append_right _ (List.mem_singleton_self _)
    · intro k hk
      rcases List.mem_append.mp hk with hk | hk
      · exact .inr (List.mem_append_left _ hk)
      · exact .inl (hsee.mpr (.inl (List.mem_singleton.mp hk)))
    · intro k hk hout t ht x hx
      obtain rfl := (hsee.mp hk).resolve_right hout
      exact List.mem_append_right _ (mem_pointedBy.mpr ⟨t, ht, hx⟩)
    · intro x hx
      rcases List.mem_append.mp hx with hx | hx
      · exact .inl (List.mem_append_left _ hx)
      · exact .inr ⟨h, List.mem_append_right _ (List.mem_singleton_self _), hnew,
          mem_pointedBy.mp hx⟩

theorem followNext_rest (hnext : r.followNext pending = some (r', pending')) :
    ∃ seen, r' = { r with seen } := by
  obtain ⟨rest, h, rfl, ⟨-, rfl, -⟩ | ⟨-, rfl, -⟩⟩ := followNext_cases hnext
  · exact ⟨r'.seen, rfl⟩
  · exact ⟨r.seen.insert h, rfl⟩

theorem followEach_of_none (hnext : r.followNext pending = none) (fuel : Nat) :
    r.followEach fuel pending = some r := by
  cases fuel <;> simp [followEach, hnext]

theorem followEach_of_some (hnext : r.followNext pending = some (r', pending')) (fuel : Nat) :
    r.followEach (fuel + 1) pending = r'.followEach fuel pending' := by
  conv => lhs; rw [followEach.eq_def]
  simp only [hnext]

/-- **One at a time, all that is reached is seen**, with fuel for the handles on the list and for
those that may still be put there. Nothing else of the roster changes. -/
theorem followEach_ends (r : Roster) (pending : List Handle) :
    ∃ seen, (∀ fuel, pending.length + r.unfollowed.length ≤ fuel →
        r.followEach fuel pending = some { r with seen }) ∧
      ∀ k, k ∈ seen ↔ r.Reaches pending k := by
  induction hn : pending.length + r.unfollowed.length using Nat.strongRecOn
    generalizing r pending with
  | ind n ih =>
      cases hnext : r.followNext pending with
      | none =>
          obtain rfl := eq_nil_of_followNext hnext
          exact ⟨r.seen, fun fuel _ => followEach_of_none hnext fuel, fun k => reaches_nil.symm⟩
      | some next =>
          obtain ⟨r', pending'⟩ := next
          have hless := length_followNext hnext
          obtain ⟨seen, hend, hseen⟩ := ih _ (hn ▸ hless) r' pending' rfl
          obtain ⟨seen', rfl⟩ := followNext_rest hnext
          refine ⟨seen, fun fuel hfuel => ?_, fun k => ?_⟩
          · obtain ⟨fuel, rfl⟩ : ∃ m, fuel = m + 1 := ⟨fuel - 1, by omega⟩
            rw [followEach_of_some hnext]
            exact hend fuel (by omega)
          · exact (hseen k).trans ((followNext_follows hnext).reaches_iff k)

/-! ## In rounds -/

theorem follows_round (r : Roster) (seen : KeySet Handle) (frontier : List Handle) :
    let fresh := KeySet.insertAll [] (frontier.filter (· ∉ seen))
    Follows { r with seen } frontier { r with seen := seen.insertAll fresh }
      (fresh.flatMap r.pointedBy) := by
  intro fresh
  have hfresh {k : Handle} : k ∈ fresh ↔ k ∈ frontier ∧ k ∉ seen := by
    rw [mem_insertAll]
    simp
  refine ⟨fun _ => rfl, fun k hk => mem_insertAll.mpr (.inl hk), ?_, ?_, ?_, ?_⟩
  · intro k hk hout
    exact (hfresh.mp ((mem_insertAll.mp hk).resolve_left hout)).1
  · intro k hk
    by_cases hold : k ∈ seen
    · exact .inl (mem_insertAll.mpr (.inl hold))
    · exact .inl (mem_insertAll.mpr (.inr (hfresh.mpr ⟨hk, hold⟩)))
  · intro k hk hout t ht x hx
    refine List.mem_flatMap.mpr ⟨k, (mem_insertAll.mp hk).resolve_left hout, ?_⟩
    exact mem_pointedBy.mpr ⟨t, ht, hx⟩
  · intro x hx
    obtain ⟨k, hk, hin⟩ := List.mem_flatMap.mp hx
    obtain ⟨hlisted, hnew⟩ := hfresh.mp hk
    exact .inr ⟨k, hlisted, hnew, mem_pointedBy.mp hin⟩

/-- However many rounds there are, nothing is seen but what is reached. -/
theorem reaches_of_mem_reach {n : Nat} {seen : KeySet Handle} {frontier : List Handle}
    (hk : k ∈ reach r.tree? n seen frontier) : Reaches { r with seen } frontier k := by
  induction n generalizing seen frontier with
  | zero =>
      cases frontier with
      | nil => exact .inl hk
      | cons x xs =>
          rcases mem_insertAll.mp hk with hk | hk
          · exact .inl hk
          · exact .inr ⟨k, hk, .self⟩
  | succ n ih =>
      cases frontier with
      | nil => exact .inl hk
      | cons x xs => exact ((follows_round r seen (x :: xs)).reaches_iff k).mp (ih hk)

/-- In rounds, all that is reached is seen, and nothing else. -/
theorem mem_seen_followAll (r : Roster) (hs : List Handle) (k : Handle) :
    k ∈ (r.followAll hs).seen ↔ r.Reaches hs k := by
  constructor
  · exact reaches_of_mem_reach
  · have hfollowed := followed_followAll r hs
    rintro (hk | ⟨b, hb, hl⟩)
    · exact hfollowed.before k hk
    · induction hl with
      | self => exact hfollowed.frontier b hb
      | @step x y t _ hxt hy ih => exact hfollowed.closed x ih hxt.1 t hxt.2 y hy

/-! ## Both ways -/

/-- **Following handles comes to an end, and sees what they reach and nothing else.** One at a time,
they are used up after no more steps than there are handles on the list and in the trees that may be
put there; more fuel changes nothing. Then, as after `followAll`, what is seen is what had been seen
before, and what the list leads to by way of handles that had not. Only the last handle on such a
way may have been seen as well, and that adds nothing. -/
theorem followAll_exact (r : Roster) (hs : List Handle) :
    (∃ seen, (∀ more, r.followEach (hs.length + r.unfollowed.length + more) hs =
        some { r with seen }) ∧ ∀ k, k ∈ seen ↔ k ∈ (r.followAll hs).seen) ∧
      ∀ k, k ∈ (r.followAll hs).seen ↔
        k ∈ r.seen ∨ ∃ b ∈ hs, Leads (fun h t => h ∉ r.seen ∧ r.tree? h = some t) b k := by
  obtain ⟨seen, hend, hseen⟩ := followEach_ends r hs
  refine ⟨⟨seen, fun more => hend _ (Nat.le_add_right _ more), fun k => ?_⟩,
    mem_seen_followAll r hs⟩
  exact (hseen k).trans (mem_seen_followAll r hs k).symm

/-- A component whose tree refers to some handles. -/
private def referring (h : Handle) (hs : List Handle) : Component :=
  { id := toString h, handle := h, kind := ⟨"node", "node"⟩, assigns := Assigns.empty
    tree := some (.mk (.text "") (hs.map (.component · false))) }

/-- The first two components refer to each other, the second one also to the third, and that one to
itself and to a handle without a record. -/
private def looped : Roster :=
  { slots := [some (referring 0 [1]), some (referring 1 [0, 2]), some (referring 2 [2, 7])] }

/-- The last handle is not found where the third component had been seen. -/
example : (looped.followAll [0]).seen = [0, 1, 2, 7] ∧
    ((looped.see 2).followAll [0]).seen = [0, 1, 2] := by decide

end ViewSync.Roster
