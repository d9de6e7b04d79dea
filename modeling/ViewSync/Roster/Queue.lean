import ViewSync.Pass
import ViewSync.Patch.Comparison

/-!
# Rendering what is queued

Renders queued components until the queue is empty, and gives the patch of each against the tree
that it had before. Rendering one may put more of them into the queue, so that components which
refer to ever new ones never come to an end: the loop therefore takes as much fuel as it may render
components, and has no answer when that is used up.

A component that fails keeps its tree; one that never had a tree is dropped again, and the slots
that refer to it are blanked, since the client was never told of it.
-/

namespace ViewSync.Roster

/-- The trees that components had before they were rendered. -/
abbrev FormerTrees := Keyed Handle (Option Tree)

/-! ## Rendering -/

/-- Put a component back after it was rendered, and note the tree that it had before if that went
well. -/
def settle (p : Pass) (h : Handle) (c : Component) (former : FormerTrees) :
    Except Error Tree → Except Error Unit × FormerTrees × Pass
  | .ok tree =>
    let c' := { c with tree := some tree, assigns := c.assigns.settled }
    (.ok (), former.insertNew h c.tree, { p with roster := p.roster.put h c' })
  | .error e =>
    let r := p.roster
    if e.isFatal then (.error e, former, { p with roster := r.put h c })
    else
      let r := if c.tree.isNone then { r with stillborn := r.stillborn.insert h } else r
      (.ok (), former, { p with roster := r.put h c, errors := p.errors ++ [e] })

/-- Render one component that was taken from the queue. Its slot is empty meanwhile. -/
def renderOne (host : Host) (p : Pass) (h : Handle) (former : FormerTrees) :
    Except Error Unit × FormerTrees × Pass :=
  match p.roster.get? h with
  | none => (.ok (), former, p)
  | some c =>
    if c.retired then (.ok (), former, p)
    else
      let p := { p with roster := (p.roster.keepState c).vacate h }
      let template := (host.kinds c.kind.key).render c.assigns
      let (result, p) := (Pass.template host (Scope.ofAssigns c.assigns) template c.tree).run p
      settle p h c former result

/-- Render until the queue is empty, or a failure is fatal. -/
def drain (host : Host) :
    Nat → Pass → FormerTrees → Option (Except Error Unit × FormerTrees × Pass)
  | fuel, p, former =>
    match p.roster.queue, fuel with
    | [], _ => some (.ok (), former, p)
    | _ :: _, 0 => none
    | h :: queue, fuel + 1 =>
      match renderOne host { p with roster := { p.roster with queue } } h former with
      | (.ok (), former, p) => drain host fuel p former
      | (.error e, former, p) => some (.error e, former, p)

/-! ## Afterwards -/

/-- Drop a component whose first render failed. -/
def drop (r : Roster) (h : Handle) : Roster :=
  match r.get? h with
  | none => r
  | some c =>
    let r := r.vacate h
    let r := r.recordUndo fun u => { u with dropped := u.dropped ++ [c] }
    { r with
      ids := r.ids.erase c.id
      seen := r.seen.erase h
      spare := r.spare.insert h }

/-- Drop the components whose first render failed. -/
def dropStillborn (r : Roster) : Roster := r.stillborn.foldl drop r

/-- Blank the slots of a tree that refer to components dropped in this pass. -/
def blankStillborn (r : Roster) (t : Tree) : Tree := t.blank r.stillborn

/-- The patches of rendered components against their trees before, with the slots of dropped ones
blanked. Nothing is said of a component without changes, or without a tree. -/
def patches (r : Roster) : FormerTrees → Except Error (Keyed Handle Patch) × Roster
  | [] => (.ok [], r)
  | (h, before) :: rest =>
    match r.get? h with
    | some c =>
      match c.tree with
      | none => patches r rest
      | some tree =>
        let tree := r.blankStillborn tree
        let r := r.put h { c with tree := some tree }
        match Tree.patchFrom .nowhere before tree with
        | .error e => (.error e, r)
        | .ok p =>
          let (result, r) := patches r rest
          (result.map fun ps => if p.isEmpty then ps else (h, p) :: ps, r)
    | none => patches r rest

/-- Keep former trees, those aside that this pass has kept already. -/
def keepTrees (r : Roster) (former : FormerTrees) : Roster :=
  r.recordUndo fun u =>
    { u with trees := former.foldl (fun trees e => trees.insertNew e.1 e.2) u.trees }

/-- Render what is queued, with fuel for so many components: the patch of each component that has
changed. -/
def renderQueue (host : Host) (fuel : Nat) (p : Pass) :
    Option (Except Error (Keyed Handle Patch) × Pass) :=
  match drain host fuel p [] with
  | none => none
  | some (.error e, former, p) => some (.error e, { p with roster := p.roster.keepTrees former })
  | some (.ok (), former, p) =>
    let (result, r) := p.roster.dropStillborn.patches former
    some (result, { p with roster := r.keepTrees former })

end ViewSync.Roster
