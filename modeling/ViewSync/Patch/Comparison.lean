import ViewSync.Patch

/-!
# Comparing trees

`patchTo` compares the tree that the client has with a new one and says only what changed. Trees of
different shape have nothing in common and are replaced; otherwise they are compared hole by hole:

* equal texts, equal handles and two choices of nothing say nothing;
* the same branch is compared in turn; another one is replaced;
* a list that was kept says nothing; otherwise lists of equal length are compared entry by entry,
  and others get new rows;
* a stream sends what it has for the client;
* a filling of another kind than before is replaced.

A list was kept if its entries are those of the old list, in one place in memory. The trees do not
show this, so that a comparison is told at which places lists were kept. A pass keeps lists only
under the body that they had, and none with a stream in it, so that it makes no difference to a
patch whether they are compared: passes compare all of their lists.

A tree without a filling for each hole is refused. No pass builds one.
-/

namespace ViewSync

/-- Some places in a tree. A place is told by the positions that lead to it. -/
abbrev Places := List Nat → Bool

namespace Places

/-- No place at all. -/
def nowhere : Places := fun _ => false

/-- Every place. -/
def everywhere : Places := fun _ => true

/-- The places inside of what is at a position, told from there. -/
def inside (places : Places) (i : Nat) : Places := fun place => places (i :: place)

end Places

end ViewSync

namespace ViewSync.Tree

/-- A change inside a slot's content. -/
def nested : Patch → Option SlotChange
  | .replace c => some (.set (.tree c))
  | .update [] => none
  | .update slots => some (.tree slots)

/-- Changes with their positions, from the first one on; what has not changed is left out. -/
def consChange {α : Type} (i : Nat) (change : Option α) (changes : List (Nat × α)) :
    List (Nat × α) :=
  match change with
  | some c => (i, c) :: changes
  | none => changes

/-- A patch that says something. -/
def nonempty (p : Patch) : Option Patch := if p.isEmpty then none else some p

mutual

/-- The patch from one tree to another, where lists were kept at some places. -/
def patchTo (kept : Places) : Tree → Tree → Except Error Patch
  | .mk old before, .mk new after => do
    checkFit new after.length
    if old ≠ new then return .replace (content (.mk new after))
    checkFit new before.length
    return .update (← changesOfEach kept 0 before after)

/-- The changes of fillings from a position on. -/
def changesOfEach (kept : Places) (i : Nat) :
    List Filling → List Filling → Except Error (List (Nat × SlotChange))
  | before :: bs, after :: as => do
    let change ← changeOf (kept.inside i) before after
    return consChange i change (← changesOfEach kept (i + 1) bs as)
  | _, _ => return []

/-- The change of what is in a hole. -/
def changeOf (kept : Places) : Filling → Filling → Except Error (Option SlotChange)
  | .text before, .text after =>
    return if before = after then none else some (.set (.text after))
  | .choice _ none, .choice _ none => return none
  | .choice c (some before), .choice d (some after) => do
    if c = d then return nested (← patchTo kept before after)
    return some (.set (.tree (content after)))
  | .loop old before, .loop new after => do
    if kept [] then return none
    if old ≠ new then return some (.set (.rows new.texts (rows after)))
    if before.length ≠ after.length then return some (.rows (rows after))
    let changes ← changesOfEntries kept 0 before after
    return if changes.isEmpty then none else some (.rowChanges changes)
  | .stream old _ _, .stream new edits entries =>
    return if old ≠ new then some (.set (.stream new.texts edits (rows entries)))
    else edits.map fun edits => .stream edits (rows entries)
  | .component before _, .component after _ =>
    return if before = after then none else some (.set (.component after))
  | _, after => return some (.set (slot after))

/-- The changes of entries from a position on. -/
def changesOfEntries (kept : Places) (i : Nat) :
    List Tree → List Tree → Except Error (List (Nat × Patch))
  | before :: bs, after :: as => do
    let p ← patchTo (kept.inside i) before after
    return consChange i (nonempty p) (← changesOfEntries kept (i + 1) bs as)
  | _, _ => return []

end

/-- The patch from the tree that the client has, if it has one. -/
def patchFrom (kept : Places) (old : Option Tree) (new : Tree) : Except Error Patch :=
  match old with
  | some old => old.patchTo kept new
  | none => (checkFit new.shape new.fillings.length).map fun _ => .replace new.content

end ViewSync.Tree
