import ViewSync.Component
import ViewSync.Config

/-!
# The roster of components

The components of a view, by handle and, while they live, by id. A handle passes through these
stages: *spare*; *live*, when it is given to a component, always the smallest one to spare;
*retired*, when the component is gone and the client has to be told; *told*, when the message that
says so is on its way; and spare again once that was sent.

A pass notes the components that it has *seen*. It sees a component when a template that is rendered
refers to it, when the unchanged tree of a component that it has seen refers to it, or when it was
mounted since the last pass. One rendered inside a stream entry is kept instead while the client
holds that entry. All others are retired at the end of the pass.

While a pass is open, an undo record keeps what a failure of the pass has to bring back.
-/

namespace ViewSync

/-- What is needed to undo a pass. -/
structure Undo where
  /-- How many slots there were. -/
  size : Nat
  /-- The handles that were to spare. -/
  spare : KeySet Handle
  /-- The components that were to be rendered. -/
  queue : List Handle
  /-- The handles that had been seen. -/
  seen : KeySet Handle
  /-- Handles given out in the pass. -/
  born : List Handle := []
  /-- Records that were dropped because their first render failed. -/
  dropped : List Component := []
  /-- Assigns and owners from before the pass first changed them. -/
  states : Keyed Handle (Assigns × Option StreamEntry) := []
  /-- Trees from before the pass, of the components that it rendered. -/
  trees : Keyed Handle (Option Tree) := []

/-- The components of a view. -/
structure Roster where
  /-- A slot for each handle. It is empty while the handle is spare, or its component is being
  rendered. -/
  slots : List (Option Component) := []
  /-- The handles of live components. -/
  ids : Keyed String Handle := []
  /-- The handles that may be given out. -/
  spare : KeySet Handle := []
  /-- The handles of components that are gone, while the client has not been told. -/
  retired : List Handle := []
  /-- The handles that the message being made up tells the client of. -/
  told : List Handle := []
  /-- The handles that were referred to or followed since the last pass. -/
  seen : KeySet Handle := []
  /-- The stream entries rendered in this pass. -/
  drawn : List StreamEntry := []
  /-- Components whose first render failed in this pass. -/
  stillborn : KeySet Handle := []
  /-- The components to render, in order. -/
  queue : List Handle := []
  /-- What is needed to undo the pass that is under way. -/
  undo : Option Undo := none
  /-- How many components may be live, if there is a limit. -/
  capacity : Option Nat := none

namespace Roster

/-- No components, with the capacity of a configuration. -/
def ofConfig (c : Config) : Roster := { capacity := c.maxComponents }

/-! ## Looking up -/

/-- The record of a handle, retired ones included. -/
def get? (r : Roster) (h : Handle) : Option Component := (r.slots[h]?).join

/-- The handle of a live component. -/
def handle? (r : Roster) (id : String) : Option Handle := r.ids.get? id

/-- The record of a live component. -/
def live? (r : Roster) (id : String) : Option Component := (r.handle? id).bind r.get?

/-- Whether a component is live. -/
def has (r : Roster) (id : String) : Bool := r.ids.has id

/-- The number of live components. -/
def size (r : Roster) : Nat := r.ids.length

/-- The last tree of a component. -/
def tree? (r : Roster) (h : Handle) : Option Tree := (r.get? h).bind Component.tree

/-- Whether anything is waiting to be rendered. -/
def isBusy (r : Roster) : Bool := !r.queue.isEmpty

/-! ## Changing single parts -/

/-- Put a record into the slot of a handle. -/
def put (r : Roster) (h : Handle) (c : Component) : Roster :=
  { r with slots := r.slots.set h (some c) }

/-- Empty the slot of a handle. -/
def vacate (r : Roster) (h : Handle) : Roster :=
  { r with slots := r.slots.set h none }

/-- Queue a component, unless it is queued already. -/
def schedule (r : Roster) (h : Handle) : Roster :=
  if h ∈ r.queue then r else { r with queue := r.queue ++ [h] }

/-- Note one handle as seen, and nothing that it refers to. -/
def see (r : Roster) (h : Handle) : Roster := { r with seen := r.seen.insert h }

/-- Add to the undo record, if a pass is open. -/
def recordUndo (r : Roster) (f : Undo → Undo) : Roster := { r with undo := r.undo.map f }

/-- Keep the assigns and the owner of a component, if this pass has not done so yet. -/
def keepState (r : Roster) (c : Component) : Roster :=
  r.recordUndo fun u => { u with states := u.states.insertNew c.handle (c.assigns, c.owner) }

/-- The smallest handle to spare, or a new one. -/
def takeHandle (r : Roster) : Handle × Roster :=
  match r.spare with
  | h :: rest => (h, { r with spare := rest })
  | [] => (r.slots.length, { r with slots := r.slots ++ [none] })

/-! ## Seeing -/

/-- The handles that have been seen once all of the frontier is, and all that their trees refer to,
in so many rounds. A handle that was seen before is not followed, and each is followed once. -/
def reach (tree? : Handle → Option Tree) : Nat → KeySet Handle → List Handle → KeySet Handle
  | _, seen, [] => seen
  | 0, seen, frontier => seen.insertAll frontier
  | n + 1, seen, frontier =>
    let fresh := KeySet.insertAll [] (frontier.filter (· ∉ seen))
    reach tree? n (seen.insertAll fresh)
      (fresh.flatMap fun h => ((tree? h).map Tree.handles).getD [])

/-- Note handles as seen, and all that their trees refer to. Every round but the last follows the
tree of another record, so that no more rounds are needed than there are records. -/
def followAll (r : Roster) (hs : List Handle) : Roster :=
  { r with seen := reach r.tree? r.slots.length r.seen hs }

/-- Note a component as seen, and all that its tree refers to. -/
def follow (r : Roster) (h : Handle) : Roster := r.followAll [h]

/-- Note all that a tree refers to as seen. -/
def followTree (r : Roster) (t : Tree) : Roster := r.followAll t.handles

/-- Note that a stream entry was rendered in this pass. -/
def noteDrawn (r : Roster) (e : StreamEntry) : Roster :=
  if e ∈ r.drawn then r else { r with drawn := e :: r.drawn }

/-! ## References -/

/-- A reference to a component that is live. -/
def referLive (kinds : Kinds) (r : Roster) (h : Handle) (c : Component) (props : Fields)
    (owner : Option StreamEntry) : Except Error (Handle × Bool) × Roster :=
  let (assigns, failure) := (kinds c.kind.key).update props c.assigns
  let c' := { c with assigns, owner := owner <|> c.owner }
  let r := (r.keepState c).put h c'
  match failure with
  | some e => (.error e, r)
  | none =>
    if c'.isStale then (.ok (h, true), (r.see h).schedule h) else (.ok (h, false), r.follow h)

/-- A reference to a component that is not there yet. Its kind takes in the props before it is
given a handle, so that a failure leaves no trace. -/
def referNew (kinds : Kinds) (r : Roster) (id : String) (kind : KindRef) (props : Fields)
    (owner : Option StreamEntry) : Except Error (Handle × Bool) × Roster :=
  match (kinds kind.key).mount Assigns.empty with
  | .error e => (.error e, r)
  | .ok assigns =>
    match (kinds kind.key).update props assigns with
    | (_, some e) => (.error e, r)
    | (assigns, none) =>
      let (h, r) := r.takeHandle
      let r := r.put h { id, handle := h, kind, assigns, owner }
      let r := { r with ids := r.ids.insert id h }
      let r := (r.see h).schedule h
      (.ok (h, true), r.recordUndo fun u => { u with born := u.born ++ [h] })

/-- Refer to a component, from inside a stream entry or not: its handle, and whether it is rendered
in this pass. -/
def refer (kinds : Kinds) (r : Roster) (id : String) (kind : KindRef) (props : Fields)
    (owner : Option StreamEntry) : Except Error (Handle × Bool) × Roster :=
  match r.handle? id with
  | some h =>
    if h ∈ r.stillborn then (.ok (h, false), r)
    else
      match r.get? h with
      -- it refers to itself while it is being rendered
      | none => (.ok (h, false), r.see h)
      | some c =>
        if c.kind.name ≠ kind.name then (.error (.kindConflict id c.kind.name kind.name), r)
        else referLive kinds r h c props owner
  | none =>
    match r.capacity with
    | some capacity =>
      if capacity ≤ r.size then (.error (.full capacity), r)
      else referNew kinds r id kind props owner
    | none => referNew kinds r id kind props owner

/-! ## Outside of passes -/

/-- Take a component out of the view. The client is told of its handle in the next message. -/
def retire (r : Roster) (id : String) : Option Handle × Roster :=
  match r.handle? id with
  | none => (none, r)
  | some h =>
    let r := match r.get? h with
      | some c => r.put h { c with retired := true }
      | none => r
    (some h, { r with
      ids := r.ids.erase id
      seen := r.seen.erase h
      retired := r.retired ++ [h] })

/-- Take components out of the view, one after the other. -/
def retireAll (r : Roster) (ids : List String) : Roster :=
  ids.foldl (fun r id => (r.retire id).2) r

/-- Take a component out of the view, if it is live. -/
def unmount (r : Roster) (id : String) : Except Error Handle × Roster :=
  match r.retire id with
  | (some h, r) => (.ok h, r)
  | (none, r) => (.error (.notMounted id), r)

/-- Take every component out of the view, and say how many there were. -/
def unmountEach (r : Roster) : Nat × Roster := (r.size, r.retireAll r.ids.keys)

/-- Hand props to a component that is live. -/
def deliver (kinds : Kinds) (r : Roster) (id : String) (props : Fields) :
    Except Error Handle × Roster :=
  match r.handle? id with
  | none => (.error (.notMounted id), r)
  | some h =>
    match r.get? h with
    | none => (.error (.notMounted id), r)
    | some c =>
      let (assigns, failure) := (kinds c.kind.key).update props c.assigns
      let c := { c with assigns }
      let r := r.put h c
      match failure with
      | some e => (.error e, r)
      | none => (.ok h, if c.isStale then r.schedule h else r)

/-! ## Telling the client -/

/-- Put a handle where it belongs in an increasing list, before its equals. -/
def insertInOrder (h : Handle) : List Handle → List Handle
  | [] => [h]
  | h' :: hs => if h ≤ h' then h :: h' :: hs else h' :: insertInOrder h hs

/-- Handles in increasing order. -/
def inOrder (hs : List Handle) : List Handle := hs.foldr insertInOrder []

/-- The retired handles, which the client is about to be told. Their records are dropped. -/
def tell (r : Roster) : List Handle × Roster :=
  let gone := inOrder r.retired
  let r := gone.foldl vacate r
  (gone, { r with
    retired := []
    told := r.told ++ gone
    queue := r.queue.filter (· ∉ gone) })

/-- The message with the handles told was sent: they are to spare. -/
def reclaim (r : Roster) : Roster := { r with spare := r.spare.insertAll r.told, told := [] }

/-! ## Pages -/

/-- The page of a component, the components inside it included down to some depth. -/
def htmlOf (r : Roster) : Nat → Handle → String
  | 0, _ => ""
  | n + 1, h =>
    match r.tree? h with
    | some t => t.html (r.htmlOf n)
    | none => ""

/-- The page of a tree. Components that do not contain themselves are nested no deeper than there
are records. -/
def html (r : Roster) (t : Tree) : String := t.html (r.htmlOf (r.slots.length + 1))

end Roster

end ViewSync
