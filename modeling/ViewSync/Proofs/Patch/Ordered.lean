import ViewSync.Proofs.Keyed
import ViewSync.Proofs.Patch.Comparison

/-!
# Positions in patches

A comparison goes through holes and entries from the first one on. The positions that a patch names
are therefore in increasing order, and each of them is named once, at every depth.
-/

namespace ViewSync

/-- Increasing, and from a position on. -/
def Keyed.RisesFrom {α : Type} (i : Nat) (m : Keyed Nat α) : Prop := m.Sorted ∧ ∀ e ∈ m, i ≤ e.1

mutual

/-- The positions in a patch go up. -/
def Patch.Ordered : Patch → Prop
  | .replace _ => True
  | .update slots => Keyed.Sorted slots ∧ Patch.OrderedSlots slots

/-- The positions in the change of a slot go up. -/
def SlotChange.Ordered : SlotChange → Prop
  | .set _ => True
  | .tree slots => Keyed.Sorted slots ∧ Patch.OrderedSlots slots
  | .rows _ => True
  | .rowChanges changes => Keyed.Sorted changes ∧ Patch.OrderedRows changes
  | .stream _ _ => True

/-- The positions in each of some changes of slots go up. -/
def Patch.OrderedSlots : List (Nat × SlotChange) → Prop
  | [] => True
  | (_, change) :: changes => change.Ordered ∧ Patch.OrderedSlots changes

/-- The positions in each of some changes of rows go up. -/
def Patch.OrderedRows : List (Nat × Patch) → Prop
  | [] => True
  | (_, p) :: changes => p.Ordered ∧ Patch.OrderedRows changes

end

namespace Tree

/-! ## One more position -/

theorem risesFrom_consChange {α : Type} {i : Nat} {changes : List (Nat × α)}
    (h : Keyed.RisesFrom (i + 1) changes) (change : Option α) :
    Keyed.RisesFrom i (consChange i change changes) := by
  obtain ⟨hsorted, habove⟩ := h
  cases change with
  | none => exact ⟨hsorted, fun e he => Nat.le_of_succ_le (habove e he)⟩
  | some c =>
      refine ⟨List.pairwise_cons.mpr ⟨habove, hsorted⟩, fun e he => ?_⟩
      rcases List.mem_cons.mp he with rfl | he
      · exact Nat.le_refl i
      · exact Nat.le_of_succ_le (habove e he)

theorem orderedSlots_consChange {i : Nat} {change : Option SlotChange}
    {changes : List (Nat × SlotChange)} (hchange : ∀ c, change = some c → c.Ordered)
    (h : Patch.OrderedSlots changes) : Patch.OrderedSlots (consChange i change changes) := by
  cases change with
  | none => exact h
  | some c => exact ⟨hchange c rfl, h⟩

theorem orderedRows_consChange {i : Nat} {p : Patch} {changes : List (Nat × Patch)}
    (hp : p.Ordered) (h : Patch.OrderedRows changes) :
    Patch.OrderedRows (consChange i (nonempty p) changes) := by
  unfold nonempty
  split
  · exact h
  · exact ⟨hp, h⟩

theorem ordered_nested {p : Patch} (hp : p.Ordered) : ∀ c, nested p = some c → c.Ordered := by
  intro c h
  match p, hp, h with
  | .replace _, _, rfl => trivial
  | .update (_ :: _), hp, rfl => exact hp

theorem ordered_rowChanges {changes : List (Nat × Patch)} (hsorted : Keyed.Sorted changes)
    (h : Patch.OrderedRows changes) :
    ∀ c, (if changes.isEmpty then none else some (SlotChange.rowChanges changes)) = some c →
      c.Ordered := by
  intro c hc
  split at hc
  · cases hc
  · obtain rfl := Option.some.inj hc
    exact ⟨hsorted, h⟩

/-! ## Comparisons -/

mutual

theorem patchTo_ordered {kept : Places} : ∀ (new old : Tree) (p : Patch),
    old.patchTo kept new = .ok p → p.Ordered
  | .mk s gs, .mk s' fs, p, h => by
      obtain ⟨-, rfl⟩ | ⟨-, -, changes, hchanges, rfl⟩ := patchTo_cases h
      · trivial
      · obtain ⟨hrises, hordered⟩ := changesOfEach_ordered gs fs 0 changes hchanges
        exact ⟨hrises.1, hordered⟩

theorem changesOfEach_ordered {kept : Places} : ∀ (after before : List Filling) (i : Nat)
    (changes : List (Nat × SlotChange)), changesOfEach kept i before after = .ok changes →
    Keyed.RisesFrom i changes ∧ Patch.OrderedSlots changes
  | a :: as, b :: bs, i, changes, h => by
      obtain ⟨change, others, hchange, hothers, rfl⟩ := changesOfEach_cons_inv h
      obtain ⟨hrises, hordered⟩ := changesOfEach_ordered as bs (i + 1) others hothers
      exact ⟨risesFrom_consChange hrises change,
        orderedSlots_consChange (changeOf_ordered a b change hchange) hordered⟩
  | [], _, i, changes, h | _ :: _, [], i, changes, h => by
      rw [changesOfEach] at h
      · obtain rfl := Except.ok.inj h
        exact ⟨⟨Keyed.sorted_nil, nofun⟩, trivial⟩
      · simp

/-- Only inside a branch and a list of entries does the comparison go on. -/
theorem changeOf_ordered {kept : Places} : ∀ (after before : Filling) (change : Option SlotChange),
    changeOf kept before after = .ok change → ∀ c, change = some c → c.Ordered
  | .choice _ (some new), before, change, h => by
      cases compared_of_changeOf h with
      | whole _ => rintro _ ⟨⟩; trivial
      | branch hp => exact ordered_nested (patchTo_ordered new _ _ hp)
  | .loop body new, before, change, h => by
      cases compared_of_changeOf h with
      | whole _ => rintro _ ⟨⟩; trivial
      | same _ => rintro _ ⟨⟩
      | rows _ => rintro _ ⟨⟩; trivial
      | @entries _ old _ changes _ hchanges =>
          obtain ⟨hrises, hordered⟩ := changesOfEntries_ordered new old 0 changes hchanges
          exact ordered_rowChanges hrises.1 hordered
  | .stream _ edits _, before, change, h => by
      cases compared_of_changeOf h with
      | whole _ => rintro _ ⟨⟩; trivial
      | stream => cases edits <;> rintro _ ⟨⟩; trivial
  | .text _, before, change, h | .choice _ none, before, change, h
  | .component _ _, before, change, h => by
      cases compared_of_changeOf h <;> rintro _ ⟨⟩; trivial

theorem changesOfEntries_ordered {kept : Places} : ∀ (after before : List Tree) (i : Nat)
    (changes : List (Nat × Patch)), changesOfEntries kept i before after = .ok changes →
    Keyed.RisesFrom i changes ∧ Patch.OrderedRows changes
  | a :: as, b :: bs, i, changes, h => by
      obtain ⟨p, others, hp, hothers, rfl⟩ := changesOfEntries_cons_inv h
      obtain ⟨hrises, hordered⟩ := changesOfEntries_ordered as bs (i + 1) others hothers
      exact ⟨risesFrom_consChange hrises _,
        orderedRows_consChange (patchTo_ordered a b p hp) hordered⟩
  | [], _, i, changes, h | _ :: _, [], i, changes, h => by
      rw [changesOfEntries] at h
      · obtain rfl := Except.ok.inj h
        exact ⟨⟨Keyed.sorted_nil, nofun⟩, trivial⟩
      · simp

end

/-- **Every patch names its positions in order.** -/
theorem patchFrom_ordered {kept : Places} {old : Option Tree} {new : Tree} {p : Patch}
    (h : patchFrom kept old new = .ok p) : p.Ordered := by
  cases old with
  | some old => exact patchTo_ordered new old p h
  | none =>
      obtain rfl := eq_replace_of_patchFrom h
      trivial

end Tree

end ViewSync
