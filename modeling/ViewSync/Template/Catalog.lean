import ViewSync.Template

/-!
# Catalogs of templates

Templates by name, compiled once and then only looked up.
-/

namespace ViewSync.Template

/-- Templates by name. -/
structure Catalog where
  /-- The templates. -/
  templates : Keyed String Template := []

namespace Catalog

/-- Store a template under a name. -/
def add (c : Catalog) (name : String) (t : Template) : Catalog := ⟨c.templates.insert name t⟩

/-- Compile the template of a name and store it. -/
def addCompiled (compile : String → Except Error Template) (c : Catalog) (name : String) :
    Except Error Catalog :=
  (compile name).map (c.add name)

/-- The templates of some names, compiled one after the other, unless one of them fails. -/
def ofNames (compile : String → Except Error Template) (names : List String) :
    Except Error Catalog :=
  names.foldlM (addCompiled compile) {}

/-- The template of a name. -/
def get (c : Catalog) (name : String) : Except Error Template :=
  match c.templates.get? name with
  | some t => .ok t
  | none => .error (.noTemplate name)

/-- Whether there is a template of a name. -/
def has (c : Catalog) (name : String) : Bool := c.templates.has name

/-- The number of templates. -/
def size (c : Catalog) : Nat := c.templates.length

theorem get_add_self (c : Catalog) (name : String) (t : Template) :
    (c.add name t).get name = .ok t := by
  simp [add, get, Keyed.get?_insert_self]

end Catalog

end ViewSync.Template
