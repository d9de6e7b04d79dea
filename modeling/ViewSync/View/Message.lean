import ViewSync.Patch.Wire

/-!
# Messages

Everything that one pass sends to the client. On the wire, the patch of the root comes first, slots
and texts alike at the top; then `c` for the patches of components by handle, `cr` for the handles
of components that are gone, and `e` for events, each of them only if there is something to say.
-/

namespace ViewSync

/-- A named event for the client. -/
structure Event where
  /-- What it is called. -/
  name : String
  /-- What it carries. -/
  payload : Value

/-- What one pass sends. -/
structure Message where
  /-- The patch of the page. -/
  root : Patch
  /-- The patches of components, by handle. -/
  components : Keyed Handle Patch
  /-- The handles that are not in use any more. -/
  gone : List Handle
  /-- The events, in order. -/
  events : List Event

namespace Message

/-- Nothing to send. -/
def isEmpty (m : Message) : Bool :=
  m.root.isEmpty && m.components.isEmpty && m.gone.isEmpty && m.events.isEmpty

/-- A list as a field, which is left out when the list is empty. -/
def listField {α : Type} (name : String) (items : List α) (value : List α → Value) :
    List (String × Value) :=
  if items.isEmpty then [] else [(name, value items)]

/-- The wire form of an event. -/
def wireEvent (e : Event) : Value := .arr [.str e.name, e.payload]

/-- The wire form of a message. -/
def wire (m : Message) : Value :=
  .obj (m.root.wireFields
    ++ listField "c" m.components (fun ps => .obj (Patch.wireChanges ps))
    ++ listField "cr" m.gone (fun hs => .arr (hs.map fun (h : Handle) => .int h))
    ++ listField "e" m.events (fun es => .arr (es.map wireEvent)))

end Message

end ViewSync
