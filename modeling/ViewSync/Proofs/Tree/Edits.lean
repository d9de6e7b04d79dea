import ViewSync.Proofs.Tree.Fits

/-!
# Stream edits in trees

What there is in a tree for streams: the edits of every stream hole that is filled, in the order of
the holes. Blanking components leaves them alone.
-/

namespace ViewSync.Tree

mutual

/-- The stream edits in a tree. -/
def edits : Tree → List StreamEdits
  | .mk _ fs => editsOfEach fs

/-- The stream edits in a filling. -/
def editsOf : Filling → List StreamEdits
  | .text _ => []
  | .choice _ none => []
  | .choice _ (some t) => edits t
  | .loop _ entries => editsOfTrees entries
  | .stream _ edits entries => edits.toList ++ editsOfTrees entries
  | .component _ _ => []

/-- The stream edits in some fillings. -/
def editsOfEach : List Filling → List StreamEdits
  | [] => []
  | f :: fs => editsOf f ++ editsOfEach fs

/-- The stream edits in some trees. -/
def editsOfTrees : List Tree → List StreamEdits
  | [] => []
  | t :: ts => edits t ++ editsOfTrees ts

end

theorem editsOfTrees_eq_flatMap (ts : List Tree) : editsOfTrees ts = ts.flatMap edits := by
  induction ts with
  | nil => rfl
  | cons t ts ih => simp [editsOfTrees, ih]

mutual

theorem edits_blank (gone : List Handle) : ∀ t : Tree, (t.blank gone).edits = t.edits
  | .mk _ fs => editsOfEach_blank gone fs

theorem editsOf_blank (gone : List Handle) : ∀ f : Filling,
    editsOf (blankFilling gone f) = editsOf f
  | .text _ => rfl
  | .choice _ none => rfl
  | .choice _ (some t) => edits_blank gone t
  | .loop _ entries => editsOfTrees_blank gone entries
  | .stream _ edits entries => congrArg (edits.toList ++ ·) (editsOfTrees_blank gone entries)
  | .component h _ => by
      unfold blankFilling
      split <;> rfl

theorem editsOfEach_blank (gone : List Handle) : ∀ fs : List Filling,
    editsOfEach (blankEach gone fs) = editsOfEach fs
  | [] => rfl
  | f :: fs => by rw [blankEach, editsOfEach, editsOfEach, editsOf_blank, editsOfEach_blank]

theorem editsOfTrees_blank (gone : List Handle) : ∀ ts : List Tree,
    editsOfTrees (blankTrees gone ts) = editsOfTrees ts
  | [] => rfl
  | t :: ts => by rw [blankTrees, editsOfTrees, editsOfTrees, edits_blank, editsOfTrees_blank]

end

end ViewSync.Tree
