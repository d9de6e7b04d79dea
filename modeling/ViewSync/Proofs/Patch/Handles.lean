import ViewSync.Proofs.Patch.Comparison
import ViewSync.Proofs.Tree.Handles

/-!
# Components in patches

The components that a patch makes slots point at, wherever in the patch that stands. The patch to a
tree names only components that the tree refers to, whatever it is compared with.
-/

namespace ViewSync

mutual

/-- The components in content. -/
def Content.handles : Content → List Handle
  | .mk _ slots => Content.handlesOfEach slots

/-- The components in a slot. -/
def Content.handlesOf : Slot → List Handle
  | .text _ => []
  | .tree content => content.handles
  | .rows _ rows => Content.handlesOfRows rows
  | .stream _ _ rows => Content.handlesOfRows rows
  | .component h => [h]

/-- The components in some slots. -/
def Content.handlesOfEach : List Slot → List Handle
  | [] => []
  | s :: ss => Content.handlesOf s ++ Content.handlesOfEach ss

/-- The components in some rows. -/
def Content.handlesOfRows : List (List Slot) → List Handle
  | [] => []
  | row :: rows => Content.handlesOfEach row ++ Content.handlesOfRows rows

end

mutual

/-- The components that a patch makes slots point at. -/
def Patch.handles : Patch → List Handle
  | .replace content => content.handles
  | .update changes => Patch.handlesOfSlots changes

/-- The components in the change of a slot. -/
def Patch.handlesOf : SlotChange → List Handle
  | .set slot => Content.handlesOf slot
  | .tree changes => Patch.handlesOfSlots changes
  | .rows rows => Content.handlesOfRows rows
  | .rowChanges changes => Patch.handlesOfRowChanges changes
  | .stream _ rows => Content.handlesOfRows rows

/-- The components in changes of slots. -/
def Patch.handlesOfSlots : List (Nat × SlotChange) → List Handle
  | [] => []
  | (_, change) :: changes => Patch.handlesOf change ++ Patch.handlesOfSlots changes

/-- The components in changes of rows. -/
def Patch.handlesOfRowChanges : List (Nat × Patch) → List Handle
  | [] => []
  | (_, p) :: changes => p.handles ++ Patch.handlesOfRowChanges changes

end

namespace Tree

/-! ## What is sent -/

mutual

theorem handles_content : ∀ t : Tree, t.content.handles = t.handles
  | .mk _ fs => handlesOfEach_row fs

theorem handlesOf_slot : ∀ f : Filling, Content.handlesOf (slot f) = handlesOf f
  | .text _ => rfl
  | .choice _ none => rfl
  | .choice _ (some t) => handles_content t
  | .loop _ entries => handlesOfRows_rows entries
  | .stream _ _ entries => handlesOfRows_rows entries
  | .component _ _ => rfl

theorem handlesOfEach_row : ∀ fs : List Filling, Content.handlesOfEach (row fs) = handlesOfEach fs
  | [] => rfl
  | f :: fs => by rw [row, Content.handlesOfEach, handlesOfEach, handlesOf_slot, handlesOfEach_row]

theorem handlesOfRows_rows : ∀ ts : List Tree, Content.handlesOfRows (rows ts) = handlesOfTrees ts
  | [] => rfl
  | .mk _ fs :: ts => by
      rw [rows, Content.handlesOfRows, handlesOfTrees, handles, handlesOfEach_row,
        handlesOfRows_rows]

end

/-- The components in the change of a slot, if there is one. -/
def handlesOfAny (change : Option SlotChange) : List Handle := change.elim [] Patch.handlesOf

theorem handlesOfSlots_consChange (i : Nat) (change : Option SlotChange)
    (changes : List (Nat × SlotChange)) :
    Patch.handlesOfSlots (consChange i change changes) =
      handlesOfAny change ++ Patch.handlesOfSlots changes := by
  cases change <;> rfl

theorem handlesOfRowChanges_consChange (i : Nat) (p : Patch) (changes : List (Nat × Patch)) :
    Patch.handlesOfRowChanges (consChange i (nonempty p) changes) =
      p.handles ++ Patch.handlesOfRowChanges changes := by
  match p with
  | .replace _ => rfl
  | .update [] => rfl
  | .update (_ :: _) => rfl

theorem handlesOfAny_nested (p : Patch) : handlesOfAny (nested p) = p.handles := by
  match p with
  | .replace _ => rfl
  | .update [] => rfl
  | .update (_ :: _) => rfl

theorem handlesOfAny_rowChanges (changes : List (Nat × Patch)) :
    handlesOfAny (if changes.isEmpty then none else some (.rowChanges changes)) =
      Patch.handlesOfRowChanges changes := by
  cases changes <;> rfl

theorem subset_of_eq {hs hs' : List Handle} (h : hs = hs') : hs ⊆ hs' := h ▸ List.Subset.refl hs

theorem append_subset_append {hs hs' ks ks' : List Handle} (h : hs ⊆ hs') (k : ks ⊆ ks') :
    hs ++ ks ⊆ hs' ++ ks' :=
  List.append_subset.mpr
    ⟨List.subset_append_of_subset_left ks' h, List.subset_append_of_subset_right hs' k⟩

mutual

/-- **A patch names no components but those in the new tree.** -/
theorem patchTo_handles {kept : Places} : ∀ (new old : Tree) (p : Patch),
    old.patchTo kept new = .ok p → p.handles ⊆ new.handles
  | .mk s gs, .mk s' fs, p, h => by
      obtain ⟨-, rfl⟩ | ⟨-, -, changes, hchanges, rfl⟩ := patchTo_cases h
      · exact subset_of_eq (handles_content (.mk s gs))
      · exact changesOfEach_handles gs fs 0 changes hchanges

theorem changesOfEach_handles {kept : Places} : ∀ (after before : List Filling) (i : Nat)
    (changes : List (Nat × SlotChange)), changesOfEach kept i before after = .ok changes →
    Patch.handlesOfSlots changes ⊆ handlesOfEach after
  | a :: as, b :: bs, i, changes, h => by
      obtain ⟨change, others, hchange, hothers, rfl⟩ := changesOfEach_cons_inv h
      rw [handlesOfSlots_consChange, handlesOfEach]
      exact append_subset_append (changeOf_handles a b change hchange)
        (changesOfEach_handles as bs (i + 1) others hothers)
  | [], _, i, changes, h | _ :: _, [], i, changes, h => by
      simp only [changesOfEach] at h
      obtain rfl := Except.ok.inj h
      exact List.nil_subset _

theorem changeOf_handles {kept : Places} : ∀ (after before : Filling) (change : Option SlotChange),
    changeOf kept before after = .ok change → handlesOfAny change ⊆ handlesOf after
  | .choice d (some u), before, change, h => by
      cases compared_of_changeOf h with
      | whole _ => exact subset_of_eq (handlesOf_slot _)
      | branch hp =>
          rw [handlesOfAny_nested]
          exact patchTo_handles u _ _ hp
  | .loop body after, before, change, h => by
      cases compared_of_changeOf h with
      | whole _ => exact subset_of_eq (handlesOf_slot _)
      | same _ => exact List.nil_subset _
      | rows _ => exact subset_of_eq (handlesOfRows_rows after)
      | @entries _ before _ changes _ hchanges =>
          rw [handlesOfAny_rowChanges]
          exact changesOfEntries_handles after before 0 changes hchanges
  | .stream body edits after, before, change, h => by
      cases compared_of_changeOf h with
      | whole _ => exact subset_of_eq (handlesOf_slot _)
      | stream =>
          cases edits with
          | some edits => exact subset_of_eq (handlesOfRows_rows after)
          | none => exact List.nil_subset _
  | .text _, before, change, h | .choice _ none, before, change, h
  | .component _ _, before, change, h => by
      cases compared_of_changeOf h with
      | whole _ => exact subset_of_eq (handlesOf_slot _)
      | _ => exact List.nil_subset _

theorem changesOfEntries_handles {kept : Places} : ∀ (after before : List Tree) (i : Nat)
    (changes : List (Nat × Patch)), changesOfEntries kept i before after = .ok changes →
    Patch.handlesOfRowChanges changes ⊆ handlesOfTrees after
  | a :: as, b :: bs, i, changes, h => by
      obtain ⟨p, others, hp, hothers, rfl⟩ := changesOfEntries_cons_inv h
      rw [handlesOfRowChanges_consChange, handlesOfTrees]
      exact append_subset_append (patchTo_handles a b p hp)
        (changesOfEntries_handles as bs (i + 1) others hothers)
  | [], _, i, changes, h | _ :: _, [], i, changes, h => by
      simp only [changesOfEntries] at h
      obtain rfl := Except.ok.inj h
      exact List.nil_subset _

end

theorem patchFrom_handles {kept : Places} {old : Option Tree} {new : Tree} {p : Patch}
    (h : patchFrom kept old new = .ok p) : p.handles ⊆ new.handles := by
  cases old with
  | some old => exact patchTo_handles new old p h
  | none =>
      obtain rfl := eq_replace_of_patchFrom h
      exact subset_of_eq (handles_content new)

end Tree

end ViewSync
