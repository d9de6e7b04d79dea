import ViewSync.View.Message
import ViewSync.Proofs.Patch.Application
import ViewSync.Proofs.Tree.Edits

/-!
# Stream edits in patches

What a patch tells a client of its streams, wherever in the patch that stands. The patch to a tree
carries the edits that are in the tree, each of them once and no others, whatever tree it is
compared with: slots that say nothing have none, and a stream that has edits always says so.
-/

namespace ViewSync

mutual

/-- The stream edits in content. -/
def Content.edits : Content → List StreamEdits
  | .mk _ slots => Content.editsOfEach slots

/-- The stream edits in a slot. -/
def Content.editsOf : Slot → List StreamEdits
  | .text _ => []
  | .tree content => content.edits
  | .rows _ rows => Content.editsOfRows rows
  | .stream _ edits rows => edits.toList ++ Content.editsOfRows rows
  | .component _ => []

/-- The stream edits in some slots. -/
def Content.editsOfEach : List Slot → List StreamEdits
  | [] => []
  | s :: ss => Content.editsOf s ++ Content.editsOfEach ss

/-- The stream edits in some rows. -/
def Content.editsOfRows : List (List Slot) → List StreamEdits
  | [] => []
  | row :: rows => Content.editsOfEach row ++ Content.editsOfRows rows

end

mutual

/-- The stream edits that a patch tells of. -/
def Patch.edits : Patch → List StreamEdits
  | .replace content => content.edits
  | .update changes => Patch.editsOfSlots changes

/-- The stream edits in the change of a slot. -/
def Patch.editsOf : SlotChange → List StreamEdits
  | .set slot => Content.editsOf slot
  | .tree changes => Patch.editsOfSlots changes
  | .rows rows => Content.editsOfRows rows
  | .rowChanges changes => Patch.editsOfRowChanges changes
  | .stream edits rows => edits :: Content.editsOfRows rows

/-- The stream edits in changes of slots. -/
def Patch.editsOfSlots : List (Nat × SlotChange) → List StreamEdits
  | [] => []
  | (_, change) :: changes => Patch.editsOf change ++ Patch.editsOfSlots changes

/-- The stream edits in changes of rows. -/
def Patch.editsOfRowChanges : List (Nat × Patch) → List StreamEdits
  | [] => []
  | (_, p) :: changes => p.edits ++ Patch.editsOfRowChanges changes

end

/-- All stream edits that a message tells of. -/
def Message.edits (m : Message) : List StreamEdits :=
  m.root.edits ++ m.components.flatMap fun e => e.2.edits

namespace Tree

/-! ## What is sent -/

mutual

theorem edits_content : ∀ t : Tree, t.content.edits = t.edits
  | .mk _ fs => editsOfEach_row fs

theorem editsOf_slot : ∀ f : Filling, Content.editsOf (slot f) = editsOf f
  | .text _ => rfl
  | .choice _ none => rfl
  | .choice _ (some t) => edits_content t
  | .loop _ entries => editsOfRows_rows entries
  | .stream _ edits entries => congrArg (edits.toList ++ ·) (editsOfRows_rows entries)
  | .component _ _ => rfl

theorem editsOfEach_row : ∀ fs : List Filling, Content.editsOfEach (row fs) = editsOfEach fs
  | [] => rfl
  | f :: fs => by rw [row, Content.editsOfEach, editsOfEach, editsOf_slot, editsOfEach_row]

theorem editsOfRows_rows : ∀ ts : List Tree, Content.editsOfRows (rows ts) = editsOfTrees ts
  | [] => rfl
  | .mk _ fs :: ts => by
      rw [rows, Content.editsOfRows, editsOfTrees, edits, editsOfEach_row, editsOfRows_rows]

end

/-- The stream edits in the change of a slot, if there is one. -/
def editsOfAny (change : Option SlotChange) : List StreamEdits := change.elim [] Patch.editsOf

theorem editsOfSlots_consChange (i : Nat) (change : Option SlotChange)
    (changes : List (Nat × SlotChange)) :
    Patch.editsOfSlots (consChange i change changes) =
      editsOfAny change ++ Patch.editsOfSlots changes := by
  cases change <;> rfl

theorem editsOfRowChanges_consChange (i : Nat) (p : Patch) (changes : List (Nat × Patch)) :
    Patch.editsOfRowChanges (consChange i (nonempty p) changes) =
      p.edits ++ Patch.editsOfRowChanges changes := by
  match p with
  | .replace _ => rfl
  | .update [] => rfl
  | .update (_ :: _) => rfl

theorem editsOfAny_nested (p : Patch) : editsOfAny (nested p) = p.edits := by
  match p with
  | .replace _ => rfl
  | .update [] => rfl
  | .update (_ :: _) => rfl

theorem editsOfAny_rowChanges (changes : List (Nat × Patch)) :
    editsOfAny (if changes.isEmpty then none else some (.rowChanges changes)) =
      Patch.editsOfRowChanges changes := by
  cases changes <;> rfl

mutual

/-- **A patch tells of the edits that are in the new tree**, and of no others. -/
theorem patchTo_edits : ∀ (new old : Tree) (p : Patch), new.Fits →
    old.patchTo .nowhere new = .ok p → p.edits = new.edits
  | .mk s gs, .mk s' fs, p, hfits, h => by
      obtain ⟨-, rfl⟩ | ⟨-, hlen, changes, hchanges, rfl⟩ := patchTo_cases h
      · exact edits_content (.mk s gs)
      · exact changesOfEach_edits gs fs s 0 changes hlen hfits hchanges

theorem changesOfEach_edits : ∀ (after before : List Filling) (s : Shape) (i : Nat)
    (changes : List (Nat × SlotChange)), before.length = after.length → s.Fits after →
    changesOfEach .nowhere i before after = .ok changes →
    Patch.editsOfSlots changes = editsOfEach after
  | [], [], _, i, changes, _, _, h => by
      obtain rfl := Except.ok.inj ((changesOfEach_nil i).symm.trans h)
      rfl
  | a :: as, b :: bs, .hole _ hole rest, i, changes, hlen, hfits, h => by
      obtain ⟨change, others, hchange, hothers, rfl⟩ := changesOfEach_cons_inv h
      rw [editsOfSlots_consChange, editsOfEach, changeOf_edits a b hole change hfits.1 hchange,
        changesOfEach_edits as bs rest (i + 1) others (Nat.succ.inj hlen) hfits.2 hothers]

theorem changeOf_edits : ∀ (after before : Filling) (hole : HoleShape) (change : Option SlotChange),
    hole.Fits after → changeOf .nowhere before after = .ok change →
    editsOfAny change = editsOf after
  | .choice (some d) (some u), before, .choice _, change, hfits, h => by
      cases compared_of_changeOf h with
      | whole _ => exact editsOf_slot _
      | branch hp =>
          rw [editsOfAny_nested]
          exact patchTo_edits u _ _ (Shape.fitsAt_iff.mp hfits).2 hp
  | .loop body after, before, .loop _, change, hfits, h => by
      cases compared_of_changeOf h with
      | whole _ => exact editsOf_slot _
      | same hkept => exact absurd hkept Places.not_nowhere
      | rows _ => exact editsOfRows_rows after
      | @entries _ before _ changes hlen hchanges =>
          rw [editsOfAny_rowChanges]
          exact changesOfEntries_edits after before 0 changes hlen
            (fun t ht => fits_of_shape_eq (hfits.2 t ht)) hchanges
  | .stream body edits after, before, .stream _ _, change, hfits, h => by
      cases compared_of_changeOf h with
      | whole _ => exact editsOf_slot _
      | stream =>
          cases edits with
          | some edits => exact congrArg (edits :: ·) (editsOfRows_rows after)
          | none =>
              -- a stream with nothing to do has no rows either
              obtain rfl := List.length_eq_zero_iff.mp hfits.2.1
              rfl
  | .text _, before, _, change, _, h | .choice none none, before, _, change, _, h
  | .component _ _, before, _, change, _, h => by
      cases compared_of_changeOf h <;> rfl
  | .choice none (some _), _, .choice _, _, hfits, _
  | .choice (some _) none, _, .choice _, _, hfits, _ => hfits.elim

theorem changesOfEntries_edits : ∀ (after before : List Tree) (i : Nat)
    (changes : List (Nat × Patch)), before.length = after.length → (∀ t ∈ after, t.Fits) →
    changesOfEntries .nowhere i before after = .ok changes →
    Patch.editsOfRowChanges changes = editsOfTrees after
  | [], [], i, changes, _, _, h => by
      obtain rfl := Except.ok.inj ((changesOfEntries_nil i).symm.trans h)
      rfl
  | a :: as, b :: bs, i, changes, hlen, hfits, h => by
      obtain ⟨p, others, hp, hothers, rfl⟩ := changesOfEntries_cons_inv h
      rw [editsOfRowChanges_consChange, editsOfTrees,
        patchTo_edits a b p (hfits a List.mem_cons_self) hp,
        changesOfEntries_edits as bs (i + 1) others (Nat.succ.inj hlen)
          (fun t ht => hfits t (List.mem_cons_of_mem _ ht)) hothers]

end

theorem patchFrom_edits {old : Option Tree} {new : Tree} {p : Patch} (hnew : new.Fits)
    (h : patchFrom .nowhere old new = .ok p) : p.edits = new.edits := by
  cases old with
  | some old => exact patchTo_edits new old p hnew h
  | none =>
      obtain rfl := Except.ok.inj ((patchFrom_none hnew.wellFormed).symm.trans h)
      exact edits_content new

end Tree

end ViewSync
