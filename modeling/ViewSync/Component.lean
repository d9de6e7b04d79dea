import ViewSync.Tree

/-!
# Components

A component is a part of a view with assigns of its own, rendered on its own. What it does is
settled by its *kind*; what it is at one time is kept in a record.

When a component is referred to for the first time, `mount` fills its assigns and `update` hands it
the props of the reference; every later reference only hands it its props. An update that fails may
have written before it failed, and what it wrote stays.
-/

namespace ViewSync

/-- What a kind of component does. -/
structure Kind where
  /-- Fills the assigns of a new component. -/
  mount : Assigns → Except Error Assigns
  /-- Takes in props: the assigns afterwards, and the failure, if there was one. -/
  update : Fields → Assigns → Assigns × Option Error
  /-- The template to render. -/
  render : Assigns → Template

namespace Kind

/-- Takes in the props that differ from the assigns. It never fails. -/
def mergeProps (props : Fields) (a : Assigns) : Assigns × Option Error := ((a.merge props).1, none)

/-- The kind that always renders one template, from its props. -/
def ofTemplate (t : Template) : Kind := ⟨.ok, mergeProps, fun _ => t⟩

end Kind

/-- The kinds that templates may refer to, by key. -/
abbrev Kinds := String → Kind

/-- The record of a component. -/
structure Component where
  /-- The id that templates and hosts know it by. -/
  id : String
  /-- The handle that trees point at it with. -/
  handle : Handle
  /-- What it is rendered as. -/
  kind : KindRef
  /-- What its template reads. -/
  assigns : Assigns
  /-- The last tree that was rendered. -/
  tree : Option Tree := none
  /-- The stream entry that it was rendered in, if it was. -/
  owner : Option StreamEntry := none
  /-- It is gone from the view, and the client has not been told yet. -/
  retired : Bool := false

namespace Component

/-- Whether the next pass has to render it. -/
def isStale (c : Component) : Bool := c.tree.isNone || c.assigns.anyWritten

end Component

end ViewSync
