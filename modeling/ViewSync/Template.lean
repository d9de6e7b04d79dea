import ViewSync.Reads
import ViewSync.Scope
import ViewSync.Shape

/-!
# Templates

Texts and holes by turns. What goes into a hole is computed by callbacks of the host, which see a
scope and may fail; for all holes but streams and components the template also says what their
callbacks read. A template is immutable and may be rendered any number of times, against any scope.

A template may also stand in many places of other templates, and then unfolds to far more than is
kept of it. Its shape and what it reads are therefore worked out when it is put together, and kept
with it.

Component kinds may refer to each other in circles, and a template is a finite thing, so a
component hole does not hold its kind but refers to it by a key.
-/

namespace ViewSync

/-- A component kind as templates refer to it. Kinds of one name count as the same kind. -/
structure KindRef where
  /-- Where the kind is found. -/
  key : String
  /-- What the kind is called. -/
  name : String
  deriving DecidableEq

/-- A callback of the host. -/
abbrev Callback (α : Type) := Scope → Except Error α

mutual

/-- Texts and holes by turns. A template starts and ends with a text. -/
inductive Template where
  | text (last : String)
  | hole (lead : String) (hole : Hole) (rest : Template)
with
  /-- The shape of a template. -/
  @[computed_field] shape : Template → Shape
    | .text last => .text last
    | .hole lead h rest => .hole lead h.shape rest.shape
  /-- What each hole may read, templates inside it included. -/
  @[computed_field] holeReads : Template → List Reads
    | .text _ => []
    | .hole _ h rest => h.reads :: rest.holeReads

/-- A place in a template that is filled on every pass. -/
inductive Hole where
  /-- A value, left in the page as text. -/
  | value (reads : Reads) (eval : Callback Value)
  /-- One of several templates, or nothing. -/
  | choice (reads : Reads) (choose : Callback (Option Nat)) (branches : Branches)
  /-- A template for each item of a list, compared by position. -/
  | loop (reads : Reads) (items : Callback (List Value)) (binding : String) (body : Template)
  /-- A template for each insert that a stream has waiting. -/
  | stream (name binding : String) (body : Template)
  /-- A component, rendered on its own. -/
  | component (kind : KindRef) (id : Callback String) (props : Callback Fields)
with
  /-- The shape of a hole. -/
  @[computed_field] shape : Hole → HoleShape
    | .value .. => .value
    | .choice _ _ branches => .choice branches.shapes
    | .loop _ _ _ body => .loop body.shape
    | .stream name _ body => .stream name body.shape
    | .component kind _ _ => .component kind.name
  /-- What a hole may read, templates inside it included. Streams and components are never skipped,
  since a stream hole uses up what is waiting and a component hole hands on its props. -/
  @[computed_field] reads : Hole → Reads
    | .value reads _ => reads
    | .choice reads _ branches => reads.joinAll branches.reads
    | .loop reads _ _ body => reads.join ((Reads.paths []).joinAll body.holeReads)
    | .stream .. => .anything
    | .component .. => .anything

/-- The templates that a choice is made among. -/
inductive Branches where
  | none
  | more (first : Template) (rest : Branches)
with
  /-- The shape of each branch. -/
  @[computed_field] shapes : Branches → List Shape
    | .none => []
    | .more t rest => t.shape :: rest.shapes
  /-- What each branch may read. -/
  @[computed_field] reads : Branches → List Reads
    | .none => []
    | .more t rest => (Reads.paths []).joinAll t.holeReads :: rest.reads

end

namespace Branches

/-- The branches in a list. -/
def ofList : List Template → Branches
  | [] => none
  | t :: ts => more t (ofList ts)

/-- The branches as a list. -/
def toList : Branches → List Template
  | none => []
  | more t rest => t :: rest.toList

/-- The number of branches. -/
def length (bs : Branches) : Nat := bs.toList.length

theorem toList_ofList : ∀ ts : List Template, (ofList ts).toList = ts
  | [] => rfl
  | t :: ts => by rw [ofList, toList, toList_ofList ts]

theorem shapes_eq_map : ∀ bs : Branches, bs.shapes = bs.toList.map Template.shape
  | none => rfl
  | more t rest => by simp [shapes, toList, shapes_eq_map rest]

end Branches

namespace Template

/-- The texts of a template. -/
def texts : Template → List String
  | text last => [last]
  | hole lead _ rest => lead :: rest.texts

/-- The holes of a template. -/
def holes : Template → List Hole
  | text _ => []
  | hole _ h rest => h :: rest.holes

/-- The number of holes. -/
def arity (t : Template) : Nat := t.holes.length

/-- The template of the given texts and holes. There has to be one more text than holes. -/
def ofParts (texts : List String) (holes : List Hole) : Except Error Template :=
  match texts, holes with
  | [last], [] => .ok (.text last)
  | lead :: ss, h :: hs =>
    match ofParts ss hs with
    | .ok rest => .ok (.hole lead h rest)
    | .error _ => .error (.unbalanced (ss.length + 1) (hs.length + 1))
  | ss, hs => .error (.unbalanced ss.length hs.length)

/-! ## Shape and reads -/

/-- Whether two templates count as the same. -/
def alike (t u : Template) : Bool := t.shape = u.shape

/-- What rendering a template may read. -/
def reads (t : Template) : Reads := (Reads.paths []).joinAll t.holeReads

/-! ## Small facts -/

theorem texts_shape : ∀ t : Template, t.shape.texts = t.texts
  | .text _ => rfl
  | .hole _ _ rest => by simp [shape, Shape.texts, texts, texts_shape rest]

theorem holes_shape : ∀ t : Template, t.shape.holes = t.holes.map Hole.shape
  | .text _ => rfl
  | .hole _ _ rest => by simp [shape, Shape.holes, holes, holes_shape rest]

theorem ofParts_texts_holes : ∀ t : Template, ofParts t.texts t.holes = .ok t
  | .text _ => rfl
  | .hole _ _ rest => by simp [texts, holes, ofParts, ofParts_texts_holes rest]

end Template

end ViewSync
