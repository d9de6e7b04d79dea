import ViewSync.Keyed
import ViewSync.Number

/-!
# Values

What assigns, props, stream items and event payloads hold. An object is a list of fields; a value
is *canonical* when the fields of every object in it are in increasing order of name, each name
once. `sorted` makes any value canonical, with the last of several fields of one name winning.

Equality of values is structural, except that it compares numbers as numbers do: the two float
zeros are equal.
-/

namespace ViewSync

/-- A dynamic value. -/
inductive Value where
  | null
  | bool (b : Bool)
  | num (n : Number)
  | str (s : String)
  | arr (items : List Value)
  | obj (fields : List (String × Value))
  deriving Inhabited

/-- Named values: props, and the entries of a bulk write. -/
abbrev Fields := Keyed String Value

namespace Value

/-- An integer. -/
def int (z : Int) : Value := .num (.int z)

mutual

/-- Equality of values. -/
def same : Value → Value → Bool
  | .null, .null => true
  | .bool a, .bool b => a = b
  | .num a, .num b => a.same b
  | .str a, .str b => a = b
  | .arr as, .arr bs => sameItems as bs
  | .obj as, .obj bs => sameFields as bs
  | _, _ => false

/-- Equality of lists of values, item by item. -/
def sameItems : List Value → List Value → Bool
  | [], [] => true
  | a :: as, b :: bs => same a b && sameItems as bs
  | _, _ => false

/-- Equality of lists of fields, field by field. -/
def sameFields : List (String × Value) → List (String × Value) → Bool
  | [], [] => true
  | (m, a) :: as, (n, b) :: bs => decide (m = n) && same a b && sameFields as bs
  | _, _ => false

end

mutual

/-- The canonical form of a value. -/
def sorted : Value → Value
  | .arr items => .arr (sortedItems items)
  | .obj fields => .obj (Keyed.ofList (sortedFields fields))
  | v => v

/-- The canonical form of each item. -/
def sortedItems : List Value → List Value
  | [] => []
  | v :: vs => sorted v :: sortedItems vs

/-- The canonical form of each field's value, the fields left in place. -/
def sortedFields : List (String × Value) → List (String × Value)
  | [] => []
  | (n, v) :: fs => (n, sorted v) :: sortedFields fs

end

/-- The field of an object. -/
def field? (v : Value) (name : String) : Option Value :=
  match v with
  | .obj fields => Keyed.get? fields name
  | _ => none

mutual

theorem same_refl : ∀ v : Value, v.same v = true
  | .null => rfl
  | .bool _ => by simp [same]
  | .num n => by simp [same, Number.same_refl]
  | .str _ => by simp [same]
  | .arr items => by simp [same, sameItems_refl items]
  | .obj fields => by simp [same, sameFields_refl fields]

theorem sameItems_refl : ∀ vs : List Value, sameItems vs vs = true
  | [] => rfl
  | v :: vs => by simp [sameItems, same_refl v, sameItems_refl vs]

theorem sameFields_refl : ∀ fs : List (String × Value), sameFields fs fs = true
  | [] => rfl
  | (_, v) :: fs => by simp [sameFields, same_refl v, sameFields_refl fs]

end

end Value

end ViewSync
