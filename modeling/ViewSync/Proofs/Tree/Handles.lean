import ViewSync.Tree

/-!
# Components in trees

A tree refers to components, and says of each whether it was to be rendered anew. A tree that has
components blanked refers to the others as before, in the same order. One that has some blanked, and
then some more, has all of them blanked.
-/

namespace ViewSync

/-- References to components, each with whether the component was to be rendered anew. -/
abbrev Refs := List (Handle × Bool)

end ViewSync

namespace ViewSync.Tree

/-! ## References -/

mutual

/-- The references in a tree. -/
def refs : Tree → Refs
  | .mk _ fs => refsOfEach fs

/-- The references in a filling. -/
def refsOf : Filling → Refs
  | .text _ => []
  | .choice _ none => []
  | .choice _ (some t) => refs t
  | .loop _ entries => refsOfTrees entries
  | .stream _ _ entries => refsOfTrees entries
  | .component h changed => [(h, changed)]

/-- The references in some fillings. -/
def refsOfEach : List Filling → Refs
  | [] => []
  | f :: fs => refsOf f ++ refsOfEach fs

/-- The references in some trees. -/
def refsOfTrees : List Tree → Refs
  | [] => []
  | t :: ts => refs t ++ refsOfTrees ts

end

mutual

theorem map_refs : ∀ t : Tree, t.refs.map Prod.fst = t.handles
  | .mk _ fs => map_refsOfEach fs

theorem map_refsOf : ∀ f : Filling, (refsOf f).map Prod.fst = handlesOf f
  | .text _ => rfl
  | .choice _ none => rfl
  | .choice _ (some t) => map_refs t
  | .loop _ entries => map_refsOfTrees entries
  | .stream _ _ entries => map_refsOfTrees entries
  | .component _ _ => rfl

theorem map_refsOfEach : ∀ fs : List Filling, (refsOfEach fs).map Prod.fst = handlesOfEach fs
  | [] => rfl
  | f :: fs => by
      rw [refsOfEach, handlesOfEach, List.map_append, map_refsOf f, map_refsOfEach fs]

theorem map_refsOfTrees : ∀ ts : List Tree, (refsOfTrees ts).map Prod.fst = handlesOfTrees ts
  | [] => rfl
  | t :: ts => by
      rw [refsOfTrees, handlesOfTrees, List.map_append, map_refs t, map_refsOfTrees ts]

end

/-- Where no component is referred to, there are no references. -/
theorem refsOf_eq_nil {f : Filling} (h : handlesOf f = []) : refsOf f = [] :=
  List.map_eq_nil_iff.mp ((map_refsOf f).trans h)

theorem mem_handles_iff {t : Tree} {h : Handle} :
    h ∈ t.handles ↔ ∃ changed, (h, changed) ∈ t.refs := by
  rw [← map_refs, List.mem_map]
  constructor
  · rintro ⟨⟨k, changed⟩, hin, rfl⟩
    exact ⟨changed, hin⟩
  · rintro ⟨changed, hin⟩
    exact ⟨(h, changed), hin, rfl⟩

/-! ## Blanking -/

variable (gone : List Handle)

mutual

theorem handles_blank : ∀ t : Tree, (t.blank gone).handles = t.handles.filter (· ∉ gone)
  | .mk _ fs => handlesOfEach_blank fs

theorem handlesOf_blank : ∀ f : Filling,
    handlesOf (blankFilling gone f) = (handlesOf f).filter (· ∉ gone)
  | .text _ => rfl
  | .choice _ none => rfl
  | .choice _ (some t) => handles_blank t
  | .loop _ entries => handlesOfTrees_blank entries
  | .stream _ _ entries => handlesOfTrees_blank entries
  | .component h _ => by
      unfold blankFilling
      split
      · next hin => simp [handlesOf, hin]
      · next hout => simp [handlesOf, hout]

theorem handlesOfEach_blank : ∀ fs : List Filling,
    handlesOfEach (blankEach gone fs) = (handlesOfEach fs).filter (· ∉ gone)
  | [] => rfl
  | f :: fs => by
      simp only [blankEach, handlesOfEach, List.filter_append, handlesOf_blank f,
        handlesOfEach_blank fs]

theorem handlesOfTrees_blank : ∀ ts : List Tree,
    handlesOfTrees (blankTrees gone ts) = (handlesOfTrees ts).filter (· ∉ gone)
  | [] => rfl
  | t :: ts => by
      simp only [blankTrees, handlesOfTrees, List.filter_append, handles_blank t,
        handlesOfTrees_blank ts]

end

theorem mem_handlesOfTrees {ts : List Tree} {h : Handle} :
    h ∈ handlesOfTrees ts ↔ ∃ t ∈ ts, h ∈ t.handles := by
  induction ts with
  | nil => simp [handlesOfTrees]
  | cons t ts ih => simp [handlesOfTrees, ih]

theorem mem_handles_blank {gone : List Handle} {t : Tree} {h : Handle} :
    h ∈ (t.blank gone).handles ↔ h ∈ t.handles ∧ h ∉ gone := by
  rw [handles_blank, List.mem_filter, decide_eq_true_iff]

variable {gone}

mutual

/-- Nothing is blanked where none of the components is. -/
theorem blank_of_disjoint : ∀ t : Tree, (∀ h ∈ t.handles, h ∉ gone) → t.blank gone = t
  | .mk _ fs, ht => by rw [blank, blankEach_of_disjoint fs ht]

theorem blankFilling_of_disjoint : ∀ f : Filling, (∀ h ∈ handlesOf f, h ∉ gone) →
    blankFilling gone f = f
  | .text _, _ => rfl
  | .choice _ none, _ => rfl
  | .choice _ (some t), hf => by rw [blankFilling, blank_of_disjoint t hf]
  | .loop _ entries, hf => by rw [blankFilling, blankTrees_of_disjoint entries hf]
  | .stream _ _ entries, hf => by rw [blankFilling, blankTrees_of_disjoint entries hf]
  | .component h _, hf => if_neg (hf h List.mem_cons_self)

theorem blankEach_of_disjoint : ∀ fs : List Filling, (∀ h ∈ handlesOfEach fs, h ∉ gone) →
    blankEach gone fs = fs
  | [], _ => rfl
  | f :: fs, h => by
      obtain ⟨hf, hfs⟩ := List.forall_mem_append.mp h
      rw [blankEach, blankFilling_of_disjoint f hf, blankEach_of_disjoint fs hfs]

theorem blankTrees_of_disjoint : ∀ ts : List Tree, (∀ h ∈ handlesOfTrees ts, h ∉ gone) →
    blankTrees gone ts = ts
  | [], _ => rfl
  | t :: ts, h => by
      obtain ⟨ht, hts⟩ := List.forall_mem_append.mp h
      rw [blankTrees, blank_of_disjoint t ht, blankTrees_of_disjoint ts hts]

end

/-! ## Blanking twice -/

variable (gone) (gone' : List Handle)

mutual

/-- Blanking more afterwards is blanking all of it at once. -/
theorem blank_blank : ∀ t : Tree, (t.blank gone).blank gone' = t.blank (gone ++ gone')
  | .mk _ fs => by rw [blank, blank, blank, blankEach_blankEach fs]

theorem blankFilling_blankFilling : ∀ f : Filling,
    blankFilling gone' (blankFilling gone f) = blankFilling (gone ++ gone') f
  | .text _ => rfl
  | .choice _ none => rfl
  | .choice _ (some t) => by rw [blankFilling, blankFilling, blankFilling, blank_blank t]
  | .loop _ entries => by
      rw [blankFilling, blankFilling, blankFilling, blankTrees_blankTrees entries]
  | .stream _ _ entries => by
      rw [blankFilling, blankFilling, blankFilling, blankTrees_blankTrees entries]
  | .component h _ => by
      by_cases hin : h ∈ gone
      · simp [blankFilling, hin]
      · simp [blankFilling, hin]

theorem blankEach_blankEach : ∀ fs : List Filling,
    blankEach gone' (blankEach gone fs) = blankEach (gone ++ gone') fs
  | [] => rfl
  | f :: fs => by
      rw [blankEach, blankEach, blankEach, blankFilling_blankFilling f, blankEach_blankEach fs]

theorem blankTrees_blankTrees : ∀ ts : List Tree,
    blankTrees gone' (blankTrees gone ts) = blankTrees (gone ++ gone') ts
  | [] => rfl
  | t :: ts => by rw [blankTrees, blankTrees, blankTrees, blank_blank t, blankTrees_blankTrees ts]

end

end ViewSync.Tree
