import ViewSync.Stream
import ViewSync.Template

/-!
# Rendered trees

What one pass left in the holes of a template. A tree records the shape of its template and one
*filling* for each hole. The tree of a component is no part of the tree that refers to it: there,
only its handle stands.

A tree can be built with fillings of kinds that its shape does not call for; the number of them is
all that `ofFillings` checks.
-/

namespace ViewSync

/-- The number by which a mounted component is known to the client. -/
abbrev Handle := Nat

mutual

/-- A shape with the fillings of its holes. -/
inductive Tree where
  | mk (shape : Shape) (fillings : List Filling)

/-- What is in a hole. -/
inductive Filling where
  /-- Text that stands in the page as it is. -/
  | text (s : String)
  /-- The branch that was chosen, and its tree. -/
  | choice (branch : Option Nat) (tree : Option Tree)
  /-- A tree for each item. -/
  | loop (body : Shape) (entries : List Tree)
  /-- What a stream has for the client, if anything, and a tree for each of the inserts. -/
  | stream (body : Shape) (edits : Option StreamEdits) (entries : List Tree)
  /-- A component, and whether it is rendered anew in this pass. -/
  | component (handle : Handle) (changed : Bool)

end

namespace Tree

/-- The shape of the template that was rendered. -/
def shape : Tree → Shape
  | mk s _ => s

/-- What is in the holes. -/
def fillings : Tree → List Filling
  | mk _ fs => fs

/-- Fails unless there is one filling for each hole. -/
def checkFit (shape : Shape) (fillings : Nat) : Except Error Unit :=
  if fillings = shape.arity then .ok () else .error (.misfit shape.arity fillings)

/-- The tree of a template and of one filling for each hole. -/
def ofFillings (t : Template) (fs : List Filling) : Except Error Tree :=
  (checkFit t.shape fs.length).map fun _ => mk t.shape fs

/-! ## Components -/

mutual

/-- The handles of the components that a tree refers to. -/
def handles : Tree → List Handle
  | .mk _ fs => handlesOfEach fs

/-- The handles in a filling. -/
def handlesOf : Filling → List Handle
  | .text _ => []
  | .choice _ none => []
  | .choice _ (some t) => handles t
  | .loop _ entries => handlesOfTrees entries
  | .stream _ _ entries => handlesOfTrees entries
  | .component h _ => [h]

/-- The handles in some fillings. -/
def handlesOfEach : List Filling → List Handle
  | [] => []
  | f :: fs => handlesOf f ++ handlesOfEach fs

/-- The handles in some trees. -/
def handlesOfTrees : List Tree → List Handle
  | [] => []
  | t :: ts => handles t ++ handlesOfTrees ts

end

mutual

/-- The tree with empty text in place of the given components. -/
def blank (gone : List Handle) : Tree → Tree
  | .mk s fs => .mk s (blankEach gone fs)

/-- A filling with empty text in place of the given components. -/
def blankFilling (gone : List Handle) : Filling → Filling
  | .text s => .text s
  | .choice c none => .choice c none
  | .choice c (some t) => .choice c (some (blank gone t))
  | .loop body entries => .loop body (blankTrees gone entries)
  | .stream body edits entries => .stream body edits (blankTrees gone entries)
  | .component h changed => if h ∈ gone then .text "" else .component h changed

/-- Fillings with empty text in place of the given components. -/
def blankEach (gone : List Handle) : List Filling → List Filling
  | [] => []
  | f :: fs => blankFilling gone f :: blankEach gone fs

/-- Trees with empty text in place of the given components. -/
def blankTrees (gone : List Handle) : List Tree → List Tree
  | [] => []
  | t :: ts => blank gone t :: blankTrees gone ts

end

/-! ## Pages -/

/-- Texts with what is in the holes between them. -/
def weave : List String → List String → String
  | [], _ => ""
  | s :: ss, holes => s ++ holes.headD "" ++ weave ss holes.tail

mutual

/-- The page of a tree, given the pages of components. -/
def html (component : Handle → String) : Tree → String
  | .mk s fs => weave s.texts (htmlOfEach component fs)

/-- What a filling leaves in the page. -/
def htmlOf (component : Handle → String) : Filling → String
  | .text s => s
  | .choice _ none => ""
  | .choice _ (some t) => html component t
  | .loop _ entries => htmlOfTrees component entries
  | .stream _ _ entries => htmlOfTrees component entries
  | .component h _ => component h

/-- What each filling leaves in the page. -/
def htmlOfEach (component : Handle → String) : List Filling → List String
  | [] => []
  | f :: fs => htmlOf component f :: htmlOfEach component fs

/-- The pages of some trees, one behind the other. -/
def htmlOfTrees (component : Handle → String) : List Tree → String
  | [] => ""
  | t :: ts => html component t ++ htmlOfTrees component ts

end

end Tree

end ViewSync
