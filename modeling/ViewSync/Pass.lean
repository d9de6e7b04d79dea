import ViewSync.Roster

/-!
# Rendering passes

Fills the holes of a template against a scope. Given the tree that was there before, of the same
template, content is kept where nothing that it depends on has changed:

* a value keeps its text;
* a choice keeps its branch, and the same branch as before renders against the tree before;
* a loop keeps all of its entries, if what its body reads has not changed either, and is otherwise
  rendered anew, every entry from scratch.

A stream always takes what the stream has for the client, and a component always hands its props to
the roster. Keeping is a saving only, and is off without change tracking.

What a pass writes besides the tree is in `Pass`, and stays written when rendering fails. A failing
reference to a component fails the pass only if the failure is fatal: otherwise it is noted and
leaves empty text.
-/

namespace ViewSync

/-- What the host supplies: the kinds of components, and the settings. -/
structure Host where
  /-- What each kind does. -/
  kinds : Kinds
  /-- The settings. -/
  config : Config

/-- What a pass writes to. -/
structure Pass where
  /-- The components. -/
  roster : Roster
  /-- What streams have for the client, and no hole has taken yet. -/
  flushes : Keyed String Stream.Flush := []
  /-- The failures that the pass recovered from. -/
  errors : List Error := []

/-- A step of a pass, which may fail. -/
abbrev PassM := ExceptT Error (StateM Pass)

namespace Pass

/-! ## Steps -/

/-- The outcome of a callback. -/
def ofExcept {α : Type} (x : Except Error α) : PassM α := ExceptT.mk (pure x)

/-- Change the roster. -/
def onRoster (f : Roster → Roster) : PassM Unit := modify fun p => { p with roster := f p.roster }

/-- Take what a stream has for the client, if no hole has taken it yet. -/
def takeFlush (name : String) : PassM (Option Stream.Flush) :=
  modifyGet fun p => (p.flushes.get? name, { p with flushes := p.flushes.erase name })

/-- Note a failure and go on. -/
def note (e : Error) : PassM Unit := modify fun p => { p with errors := p.errors ++ [e] }

/-! ## Keeping what was there before -/

/-- The fillings of a tree of the same template, or none. -/
def keptFillings (t : Template) : Option Tree → Except Error (List Filling)
  | none => .ok []
  | some tree =>
    if tree.shape = t.shape then
      (Tree.checkFit t.shape tree.fillings.length).map fun _ => tree.fillings
    else .ok []

/-- Whether what was rendered before is still good. -/
def mayKeep (host : Host) (s : Scope) (reads : Reads) : Bool :=
  host.config.changeTracking && reads.intactIn s.assigns

/-- The text that was there before, where it may be kept. -/
def keptText (host : Host) (s : Scope) (reads : Reads) : Option Filling → Option String
  | some (.text text) => if mayKeep host s reads then some text else none
  | _ => none

/-- The branch before with its tree. -/
def branchBefore : Option Filling → Option (Option Nat × Option Tree)
  | some (.choice branch tree) => some (branch, tree)
  | _ => none

/-- The branch of a choice: the one before, where it may be kept. -/
def branchOf (host : Host) (s : Scope) (reads : Reads) (choose : Callback (Option Nat))
    (before : Option (Option Nat × Option Tree)) : Except Error (Option Nat) :=
  match before with
  | some (b, _) => if mayKeep host s reads then .ok b else choose s
  | none => choose s

/-- The tree before of a branch that is the same as before. -/
def treeOfBranch (b : Option Nat) (before : Option (Option Nat × Option Tree)) : Option Tree :=
  match before with
  | some (b', tree) => if b' = b then tree else none
  | none => none

/-- The entries that were there before, where they may be kept. -/
def keptEntries (host : Host) (s : Scope) (reads : Reads) (body : Template) :
    Option Filling → Option (List Tree)
  | some (.loop shape entries) =>
    if shape = body.shape && mayKeep host s reads && mayKeep host s body.reads then some entries
    else none
  | _ => none

/-! ## Filling holes -/

/-- The local that holds the key of a stream entry inside the body of its stream. -/
def keyLocal : String := "dom_id"

/-- Refer to the component of a hole. -/
def refer (host : Host) (owner : Option StreamEntry) (s : Scope) (kind : KindRef)
    (id : Callback String) (props : Callback Fields) : PassM (Handle × Bool) := do
  let id ← ofExcept (id s)
  let props ← ofExcept (props s)
  let result ← modifyGet fun p =>
    let (result, roster) := p.roster.refer host.kinds id kind props owner
    (result, { p with roster })
  ofExcept result

/-- Fill a component hole. -/
def component (host : Host) (owner : Option StreamEntry) (s : Scope) (kind : KindRef)
    (id : Callback String) (props : Callback Fields) : PassM Filling :=
  tryCatch (do
    let (h, changed) ← refer host owner s kind id props
    return .component h changed)
  fun e => do
    if e.isFatal then throw e
    note e
    return .text ""

mutual

/-- Fill the holes of a template, given what was in these holes before, or nothing. -/
def holes (host : Host) (owner : Option StreamEntry) (s : Scope) :
    Template → List Filling → PassM (List Filling)
  | .text _, _ => return []
  | .hole _ h rest, before => do
    let f ← hole host owner s h before.head?
    let fs ← holes host owner s rest before.tail
    return f :: fs

/-- Fill a hole. -/
def hole (host : Host) (owner : Option StreamEntry) (s : Scope) :
    Hole → Option Filling → PassM Filling
  | .value reads eval, before =>
    match keptText host s reads before with
    | some text => return .text text
    | none => do
      let v ← ofExcept (eval s)
      return .text (v.safeText host.config.escapeHtml)
  | .choice reads choose branches, before => do
    let before := branchBefore before
    let b ← ofExcept (branchOf host s reads choose before)
    match b with
    | none => return .choice none none
    | some i =>
      let tree ← branch host owner s (treeOfBranch b before) i branches.length branches i
      return .choice b (some tree)
  | .loop reads items binding body, before =>
    match keptEntries host s reads body before with
    | some entries => do
      entries.forM fun entry => onRoster (·.followTree entry)
      return .loop body.shape entries
    | none => do
      let values ← ofExcept (items s)
      let entries ← values.mapM fun v => do
        return .mk body.shape (← holes host owner (s.bind binding v) body [])
      return .loop body.shape entries
  | .stream name binding body, _ => do
    match ← takeFlush name with
    | none => return .stream body.shape none []
    | some flush =>
      let entries ← flush.inserts.mapM fun i => do
        let entry : StreamEntry := ⟨flush.name, i.key⟩
        onRoster (·.noteDrawn entry)
        let s := (s.bind binding i.item).bind keyLocal (.str i.key)
        return .mk body.shape (← holes host (some entry) s body [])
      return .stream body.shape (some flush.edits) entries
  | .component kind id props, _ => component host owner s kind id props

/-- Render the branch that stands at a position of what is left of the branches. -/
def branch (host : Host) (owner : Option StreamEntry) (s : Scope) (before : Option Tree)
    (chosen count : Nat) : Branches → Nat → PassM Tree
  | .none, _ => throw (.noSuchChoice chosen count)
  | .more t _, 0 => do
    let kept ← ofExcept (keptFillings t before)
    return .mk t.shape (← holes host owner s t kept)
  | .more _ rest, n + 1 => branch host owner s before chosen count rest n

end

/-- Render a template, given the tree that was there before. -/
def template (host : Host) (s : Scope) (t : Template) (before : Option Tree) : PassM Tree := do
  let kept ← ofExcept (keptFillings t before)
  return .mk t.shape (← holes host none s t kept)

end Pass

end ViewSync
