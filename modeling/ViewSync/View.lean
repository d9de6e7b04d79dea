import ViewSync.Roster.Passes
import ViewSync.Roster.Queue
import ViewSync.Streams
import ViewSync.View.Message

/-!
# Views

A view owns the state that a page is made from: assigns, components, streams, waiting events, and
the tree that the client was sent last. Any number of changes go by without the client; `render`
then brings the client up to date with one message.

A pass renders the root, then the queued components, compares all of it with what the client has,
clears the queues of the streams that some hole took, and takes components out that nothing refers
to any more. If the root fails, nothing is sent, and the view is as it was.
-/

namespace ViewSync

/-- Which parts of a view were changed since the last pass. -/
structure Concerns where
  /-- Assigns were written. -/
  assigns : Bool := false
  /-- Components came, or went, or took in props. -/
  components : Bool := false
  /-- Streams were changed. -/
  streams : Bool := false
  /-- Events wait to be sent. -/
  events : Bool := false
  deriving DecidableEq

/-- Whether any part was changed. -/
def Concerns.any (c : Concerns) : Bool := c.assigns || c.components || c.streams || c.events

/-- The state of a view. -/
structure View where
  /-- The kinds of components, and the settings. -/
  host : Host
  /-- The template of the page. -/
  root : Template
  /-- What the page reads. -/
  assigns : Assigns := Assigns.empty
  /-- The components. -/
  roster : Roster := {}
  /-- The streams. -/
  streams : Streams := {}
  /-- The events to send with the next page. -/
  events : List Event := []
  /-- The tree that the client was sent last. -/
  sent : Option Tree := none
  /-- What was changed since then. -/
  unsent : Concerns := {}

namespace View

/-- A new view of a template. -/
def ofTemplate (host : Host) (root : Template) : View :=
  { host, root, roster := Roster.ofConfig host.config }

/-! ## Changes -/

/-- Count the assigns as changed, as whoever gets hold of them to write does. -/
def openAssigns (v : View) : View := { v with unsent := { v.unsent with assigns := true } }

/-- Write to the assigns. -/
def writeAssigns (v : View) (f : Assigns → Assigns) : View :=
  { v.openAssigns with assigns := f v.assigns }

/-- Write one assign. -/
def assign (v : View) (name : String) (x : Value) : View := v.writeAssigns (·.set name x)

/-- The view after an operation on its components, which count as changed if it succeeds. -/
def withRoster {α : Type} (v : View) : Except Error α × Roster → Except Error α × View
  | (.ok a, roster) => (.ok a, { v with roster, unsent := { v.unsent with components := true } })
  | (.error e, roster) => (.error e, { v with roster })

/-- Mount a component that no template has to refer to. The next pass counts it as seen, and later
ones do not. -/
def mount (v : View) (id : String) (kind : KindRef) (props : Fields) :
    Except Error Handle × View :=
  let (result, roster) := v.roster.refer v.host.kinds id kind props none
  v.withRoster (result.map Prod.fst, roster)

/-- Take a component out. -/
def unmount (v : View) (id : String) : Except Error Handle × View :=
  v.withRoster (v.roster.unmount id)

/-- Hand props to a component. -/
def deliver (v : View) (id : String) (props : Fields) : Except Error Handle × View :=
  v.withRoster (v.roster.deliver v.host.kinds id props)

/-- Tell a stream how its items are keyed. -/
def keyStream (v : View) (name : String) (keyOf : Value → Value) : View :=
  { v with streams := v.streams.keyBy name keyOf }

/-- Queue a change of a stream. -/
def changeStream (v : View) (name : String) (c : Stream.Change) : Except Error View :=
  (v.streams.change name c).map fun streams =>
    { v with streams, unsent := { v.unsent with streams := true } }

/-- Queue an event. -/
def notify (v : View) (e : Event) : View :=
  { v with events := v.events ++ [e], unsent := { v.unsent with events := true } }

/-! ## Passes -/

/-- Whether a pass would have anything to do. -/
def isStale (v : View) : Bool := v.sent.isNone || v.unsent.any || v.roster.isBusy

/-- What came of a pass. -/
structure Outcome where
  /-- What is sent to the client. -/
  message : Message
  /-- The client had nothing before. -/
  isFirst : Bool
  /-- The failures that the pass recovered from. -/
  errors : List Error

/-- What a pass has rendered. -/
structure Rendering where
  /-- The page. -/
  root : Tree
  /-- What there is to say of it. -/
  patch : Patch
  /-- What there is to say of components. -/
  components : Keyed Handle Patch

/-- Render the root and what is queued. Nothing is settled yet. -/
def renderAll (v : View) (fuel : Nat) (p : Pass) : Option (Except Error Rendering × Pass) :=
  match (Pass.template v.host (Scope.ofAssigns v.assigns) v.root v.sent).run p with
  | (.error e, p) => some (.error e, p)
  | (.ok root, p) =>
    match Roster.renderQueue v.host fuel p with
    | none => none
    | some (.error e, p) => some (.error e, p)
    | some (.ok components, p) =>
      let root := p.roster.blankStillborn root
      some ((Tree.patchFrom .nowhere v.sent root).map fun patch => { root, patch, components }, p)

/-- Settle a pass that went well, given what the streams had for the client when it began. -/
def settle (v : View) (plans : List (String × Stream.Plan)) (done : Rendering) (p : Pass) :
    Outcome × View :=
  let taken := plans.filter fun (name, _) => !p.flushes.has name
  let streams := v.streams.adopt (taken.map fun (name, plan) => (name, plan.held))
  let (_, roster) := p.roster.closePass streams.holds
  let (gone, roster) := roster.tell
  let message : Message :=
    { root := done.patch
      components := done.components.filter fun (h, _) => h ∉ gone
      gone
      events := v.events }
  ({ message, isFirst := v.sent.isNone, errors := p.errors },
    { v with
      assigns := v.assigns.settled
      roster := roster.reclaim
      streams
      events := []
      sent := some done.root
      unsent := {} })

/-- Bring the client up to date, with fuel for so many components. There is no answer when the fuel
is used up. -/
def render (v : View) (fuel : Nat) : Option (Except Error Outcome × View) :=
  let plans := v.streams.plans
  let flushes := Keyed.ofList (plans.map fun (name, plan) => (name, plan.flush))
  match v.renderAll fuel { roster := v.roster.openPass, flushes } with
  | none => none
  | some (.error e, p) => some (.error e, { v with roster := p.roster.undoPass })
  | some (.ok done, p) =>
    let (outcome, v) := v.settle plans done p
    some (.ok outcome, v)

/-- The page, as of the last pass. -/
def html (v : View) : Option String := v.sent.map v.roster.html

/-- Take everything out of the view, and name the components that were in it. -/
def close (v : View) : List Handle × View :=
  let (_, roster) := v.roster.unmountEach
  let (gone, roster) := roster.tell
  (gone, { v with
    roster := roster.reclaim
    streams := v.streams.clear
    events := []
    sent := none
    unsent := {} })

end View

end ViewSync
