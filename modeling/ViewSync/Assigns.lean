import ViewSync.Path
import ViewSync.Error

/-!
# Assigns

Named values, with a record of what was written since the assigns were last *settled*: for each
name written, the value that it had before the first of these writes. Reading records nothing.
Writing records the name whether or not the value is a new one; only `merge` leaves names alone
whose value is equal already.

The record answers whether what a path leads to may differ from before. A bare name differs when it
was written; a path into a value differs when its name was written and it led to something else.
-/

namespace ViewSync

/-- Named values with a record of what was written. -/
structure Assigns where
  /-- The values by name. -/
  values : Keyed String Value
  /-- Each name written, with its value before the first write, if it had one. -/
  before : Keyed String (Option Value)
  /-- Whether two values count as the same. -/
  equal : Value → Value → Bool

namespace Assigns

/-- No values, under the given equality. -/
def emptyWith (equal : Value → Value → Bool) : Assigns := ⟨[], [], equal⟩

/-- No values, under equality of values. -/
def empty : Assigns := emptyWith Value.same

/-- The value of a name, if it has one. -/
def get? (a : Assigns) (name : String) : Option Value := a.values.get? name

/-- The value of a name. -/
def get (a : Assigns) (name : String) : Except Error Value :=
  match a.get? name with
  | some v => .ok v
  | none => .error (.unset name)

/-- Whether a name has a value. -/
def has (a : Assigns) (name : String) : Bool := a.values.has name

/-! ## Writing -/

/-- Write a value. -/
def set (a : Assigns) (name : String) (v : Value) : Assigns :=
  { a with
    values := a.values.insert name v
    before := a.before.insertNew name (a.get? name) }

/-- Write values one after the other. -/
def setAll (a : Assigns) (entries : List (String × Value)) : Assigns :=
  entries.foldl (fun a e => a.set e.1 e.2) a

/-- The assigns of a map, all of them written. -/
def ofFields (entries : Fields) : Assigns := empty.setAll entries

/-- Write a value unless there is one, and say whether it was written. -/
def setDefault (a : Assigns) (name : String) (init : Assigns → Value) : Assigns × Bool :=
  if a.has name then (a, false) else (a.set name (init a), true)

/-- Write a value made from the one that is there. -/
def update (a : Assigns) (name : String) (f : Value → Value) : Except Error Assigns :=
  (a.get name).map fun v => a.set name (f v)

/-- Whether a name already has a value equal to `v`. -/
def hasEqual (a : Assigns) (name : String) (v : Value) : Bool := (a.get? name).any (a.equal · v)

/-- Write the values that are not equal to the ones that are there, and say whether any was. -/
def merge (a : Assigns) : List (String × Value) → Assigns × Bool
  | [] => (a, false)
  | (name, v) :: entries =>
    if a.hasEqual name v then a.merge entries else (((a.set name v).merge entries).1, true)

/-! ## The record of writes -/

/-- Whether a name was written. -/
def isWritten (a : Assigns) (name : String) : Bool := a.before.has name

/-- Whether anything was written. -/
def anyWritten (a : Assigns) : Bool := !a.before.isEmpty

/-- Whether what a path leads to may differ from before the first write. -/
def differsAt (a : Assigns) (p : Path) : Bool :=
  match a.before.get? p.root with
  | none => false
  | some before =>
    if p.below.isEmpty then true
    else
      match before with
      | none => true
      | some old =>
        match p.lookup? old, (a.get? p.root).bind p.lookup? with
        | some x, some y => !a.equal x y
        | none, none => false
        | _, _ => true

/-- Whether what some of the paths lead to may differ. -/
def differsAtAny (a : Assigns) (ps : List Path) : Bool := ps.any a.differsAt

/-- Record every name as written, without a value before. -/
def invalidate (a : Assigns) : Assigns :=
  { a with before := a.values.keys.foldl (fun m name => m.insertNew name none) a.before }

/-- Clear the record. -/
def settled (a : Assigns) : Assigns := { a with before := [] }

/-! ## Reading back what was written -/

theorem get?_set_self (a : Assigns) (name : String) (v : Value) :
    (a.set name v).get? name = some v :=
  Keyed.get?_insert_self ..

theorem get?_set_of_ne (a : Assigns) {name other : String} (v : Value) (h : other ≠ name) :
    (a.set name v).get? other = a.get? other :=
  Keyed.get?_insert_of_ne _ v h

theorem differsAt_settled (a : Assigns) (p : Path) : a.settled.differsAt p = false := by
  simp [differsAt, settled, Keyed.get?]

end Assigns

end ViewSync
