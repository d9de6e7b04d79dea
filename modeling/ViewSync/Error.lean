import ViewSync.Value.Text

/-!
# Errors

Every failure that an operation can report, by cause. `message` is the one place with the wording.
An error is fatal when only a broken tree can cause it; all others are reported and recovered from.
-/

namespace ViewSync

/-- Why a stream refused the key of an item. -/
inductive KeyFault where
  /-- The item at a position of the operation has a key that is no string, or an empty one. -/
  | notText (position : Nat) (key : Value)
  /-- Two items of the operation have the same key. -/
  | repeated (key : String)

/-- A failure. -/
inductive Error where
  /-- An assign was read that was never set. -/
  | unset (name : String)
  /-- A component id is in use by another kind of component. -/
  | kindConflict (id mounted requested : String)
  /-- A stream refused an operation. -/
  | badKey (stream : String) (fault : KeyFault)
  /-- A tree does not have one filling for each hole. -/
  | misfit (holes fillings : Nat)
  /-- Texts and holes do not alternate. -/
  | unbalanced (texts holes : Nat)
  /-- A callback of the host failed. -/
  | failed (text : String)
  /-- A string was asked for under a name that has another value. -/
  | notString (name : String)
  /-- A list was asked for under a name that has another value. -/
  | notList (name : String)
  /-- A branch was chosen that the template does not have. -/
  | noSuchChoice (index count : Nat)
  /-- No component is mounted under an id. -/
  | notMounted (id : String)
  /-- There may be no more components. -/
  | full (capacity : Nat)
  /-- No template is stored under a name. -/
  | noTemplate (name : String)

namespace KeyFault

/-- The wording of a fault. -/
def message : KeyFault → String
  | notText position key =>
    s!"item {position} produced dom id {key.text}, expected a non-empty string"
  | repeated key => s!"dom id `{key}` appears more than once in one operation"

end KeyFault

namespace Error

/-- Only a tree that does not fit its template is beyond recovery. -/
def isFatal : Error → Bool
  | misfit .. => true
  | _ => false

/-- The wording of an error. -/
def message : Error → String
  | unset name => s!"assign `{name}` is not set"
  | kindConflict id mounted requested =>
    s!"component `{id}` is mounted as `{mounted}` and cannot be rendered as `{requested}`"
  | badKey stream fault => s!"stream `{stream}` rejected operation: {fault.message}"
  | misfit holes fillings =>
    s!"the template has {holes} holes but the rendered tree has {fillings} dynamics"
  | unbalanced texts holes => s!"malformed template: {texts} statics for {holes} holes"
  | failed text => s!"expression failed: {text}"
  | notString name => s!"expression failed: `{name}` is not a string"
  | notList name => s!"expression failed: `{name}` is not a list"
  | noSuchChoice index count =>
    s!"expression failed: branch {index} chosen but only {count} exist"
  | notMounted id => s!"component `{id}` is not mounted"
  | full capacity => s!"component limit of {capacity} reached"
  | noTemplate name => s!"template `{name}` is not in the cache"

end Error

end ViewSync
