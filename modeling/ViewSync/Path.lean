import ViewSync.Value

/-!
# Paths

A path names an assign, or a place inside one: its first segment is the name of the assign, the
others lead into its value, through objects by name and through arrays by position. The text of a
path has dots between the segments, and every text is the text of exactly one path.
-/

namespace ViewSync

/-- The name of an assign and the segments below it. -/
structure Path where
  /-- The assign that is named. -/
  root : String
  /-- The segments from there on. -/
  below : List String
  deriving DecidableEq

namespace Path

/-- The text before the first dot, and the texts behind each dot. -/
def segments : List Char → List Char × List (List Char)
  | [] => ([], [])
  | c :: cs =>
    let (first, others) := segments cs
    if c = '.' then ([], first :: others) else (c :: first, others)

/-- The path of a dotted text. -/
def ofText (s : String) : Path :=
  let (first, others) := segments s.toList
  ⟨String.ofList first, others.map String.ofList⟩

/-- The dotted text of a path. -/
def text (p : Path) : String := p.below.foldl (fun s f => s ++ "." ++ f) p.root

/-- A position in an array: ASCII digits, a plus sign allowed before them, below `2 ^ 64`. -/
def position? (segment : String) : Option Nat :=
  let digits := match segment.toList with
    | '+' :: ds => ds
    | ds => ds
  if digits.isEmpty || !digits.all Char.isDigit then none
  else
    let n := digits.foldl (fun n c => 10 * n + (c.toNat - '0'.toNat)) 0
    if n < Nat.pow 2 64 then some n else none

/-- What a segment leads to inside a value. -/
def descend (v : Value) (segment : String) : Option Value :=
  match v with
  | .obj fields => Keyed.get? fields segment
  | .arr items => (position? segment).bind (items[·]?)
  | _ => none

/-- What the segments below the root lead to inside the value of the root. -/
def lookup? (p : Path) (v : Value) : Option Value := p.below.foldlM descend v

theorem lookup?_of_below_eq_nil {p : Path} (h : p.below = []) (v : Value) :
    p.lookup? v = some v := by
  simp [lookup?, h]

end Path

end ViewSync
