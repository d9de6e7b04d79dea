import ViewSync.Assigns

/-!
# What is read

What rendering a part of a template may read from the assigns: certain paths, or anything. From it
follows when what was rendered before is still good: when none of the paths leads to anything else.
-/

namespace ViewSync

/-- The paths that rendering may read, or `anything` when it may not be skipped at all. -/
inductive Reads where
  | paths (ps : List Path)
  | anything
  deriving DecidableEq

namespace Reads

/-- The reads of dotted paths. -/
def ofTexts (paths : List String) : Reads := .paths (paths.map Path.ofText)

/-- Whether all that is read is as it was before. -/
def intactIn (r : Reads) (a : Assigns) : Bool :=
  match r with
  | .paths ps => !a.differsAtAny ps
  | .anything => false

/-- Paths followed by those further paths that are not among them yet. -/
def appendNew (ps : List Path) : List Path → List Path
  | [] => ps
  | q :: qs => if q ∈ ps then appendNew ps qs else appendNew (ps ++ [q]) qs

/-- What either reads, the paths of the first in front. -/
def join : Reads → Reads → Reads
  | .paths ps, .paths qs => .paths (appendNew ps qs)
  | _, _ => .anything

/-- What any of them reads, from `r` on. -/
def joinAll (r : Reads) (rs : List Reads) : Reads := rs.foldl join r

theorem mem_appendNew {ps qs : List Path} {p : Path} :
    p ∈ appendNew ps qs ↔ p ∈ ps ∨ p ∈ qs := by
  induction qs generalizing ps with
  | nil => simp [appendNew]
  | cons q qs ih =>
    simp only [appendNew]
    split
    · next h => simp only [ih, List.mem_cons]; grind
    · simp only [ih, List.mem_append, List.mem_cons]; grind

end Reads

end ViewSync
