import ViewSync.Roster

/-!
# Opening, closing and undoing passes

`openPass` starts the undo record. `closePass` ends a pass that went well: components that it has
not seen are retired, and the undo record is dropped. `undoPass` ends a pass that failed and brings
back what the undo record kept.
-/

namespace ViewSync.Roster

/-- Start a pass. -/
def openPass (r : Roster) : Roster :=
  let u : Undo := { size := r.slots.length, spare := r.spare, queue := r.queue, seen := r.seen }
  { r with undo := some u }

/-! ## Closing -/

/-- The components that are live. -/
def liveRecords (r : Roster) : List Component := (r.slots.filterMap id).filter (!·.retired)

/-- Whether a component is lost that was rendered in a stream entry: the client dropped the entry,
or it was rendered again and no longer refers to the component. -/
def isLost (r : Roster) (holds : StreamEntry → Bool) (c : Component) (entry : StreamEntry) : Bool :=
  !holds entry || (r.drawn.contains entry && !r.seen.contains c.handle)

/-- The components in stream entries: those that are lost, and those that are not. -/
def ownedRecords (r : Roster) (holds : StreamEntry → Bool) : List Component × List Component :=
  (r.liveRecords.filter (·.owner.isSome)).partition fun c => c.owner.any (r.isLost holds c)

/-- End a pass, given which stream entries the client holds, and say how many components it is to
take out. -/
def closePass (r : Roster) (holds : StreamEntry → Bool) : Nat × Roster :=
  let (lost, kept) := r.ownedRecords holds
  let r := r.followAll (kept.map Component.handle)
  let unseen := r.liveRecords.filter fun c => c.owner.isNone && !r.seen.contains c.handle
  let stale := (lost ++ unseen).map Component.id
  let r := r.retireAll stale
  (stale.length, { r with seen := [], drawn := [], stillborn := [], undo := none })

/-! ## Undoing -/

/-- Bring back a record that was dropped, unless its handle was given to another component since. -/
def revive (born : List Handle) (r : Roster) (c : Component) : Roster :=
  if c.handle ∈ born then r else { r.put c.handle c with ids := r.ids.insert c.id c.handle }

/-- Take back a handle that was given out. -/
def takeBack (r : Roster) (h : Handle) : Roster :=
  match r.get? h with
  | some c => { r.vacate h with ids := r.ids.erase c.id }
  | none => r

/-- Bring back assigns and owner of a component. -/
def restoreState (r : Roster) (h : Handle) (state : Assigns × Option StreamEntry) : Roster :=
  match r.get? h with
  | some c => r.put h { c with assigns := state.1, owner := state.2 }
  | none => r

/-- Bring back the tree of a component. -/
def restoreTree (r : Roster) (h : Handle) (tree : Option Tree) : Roster :=
  match r.get? h with
  | some c => r.put h { c with tree }
  | none => r

/-- Undo everything since the pass was opened, if one is open. -/
def undoPass (r : Roster) : Roster :=
  match r.undo with
  | none => r
  | some u =>
    let r := u.dropped.foldl (revive u.born) r
    let r := u.born.foldl takeBack r
    let r := u.states.foldl (fun r e => r.restoreState e.1 e.2) r
    let r := u.trees.foldl (fun r e => r.restoreTree e.1 e.2) r
    { r with
      slots := r.slots.take u.size
      spare := u.spare
      queue := u.queue
      seen := u.seen
      drawn := []
      stillborn := []
      undo := none }

end ViewSync.Roster
