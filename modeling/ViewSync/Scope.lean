import ViewSync.Assigns

/-!
# Scopes

What a callback of a template may read: the assigns, and the local bindings that loops and streams
introduce around their bodies. A local hides an assign of the same name, and an inner local an
outer one.
-/

namespace ViewSync

/-- Assigns and local bindings, the innermost first. -/
structure Scope where
  /-- The assigns of the view, or of the component. -/
  assigns : Assigns
  /-- The local bindings. -/
  locals : List (String × Value)

namespace Scope

/-- The scope outside of any loop. -/
def ofAssigns (a : Assigns) : Scope := ⟨a, []⟩

/-- The scope with one more local binding. -/
def bind (s : Scope) (name : String) (v : Value) : Scope :=
  { s with locals := (name, v) :: s.locals }

/-- Whether there are local bindings. -/
def hasLocals (s : Scope) : Bool := !s.locals.isEmpty

/-- The value of a name, local or assigned. -/
def get (s : Scope) (name : String) : Except Error Value :=
  match Keyed.get? s.locals name with
  | some v => .ok v
  | none => s.assigns.get name

/-- The value of an assign, also where a local hides it. -/
def assign (s : Scope) (name : String) : Except Error Value := s.assigns.get name

/-- What a path leads to, `null` when it leads nowhere. -/
def value (s : Scope) (p : Path) : Except Error Value :=
  (s.get p.root).map fun v => (p.lookup? v).getD .null

/-- The string of a name. -/
def string (s : Scope) (name : String) : Except Error String := do
  match ← s.get name with
  | .str t => .ok t
  | _ => .error (.notString name)

/-- The list of a name, empty when its value is `null`. -/
def list (s : Scope) (name : String) : Except Error (List Value) := do
  match ← s.get name with
  | .arr items => .ok items
  | .null => .ok []
  | _ => .error (.notList name)

theorem get_bind_self (s : Scope) (name : String) (v : Value) :
    (s.bind name v).get name = .ok v := by
  simp [get, bind, Keyed.get?]

end Scope

end ViewSync
