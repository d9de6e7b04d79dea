import ViewSync.Patch.Comparison
import ViewSync.Proofs.Except

/-!
# Steps of a comparison

What a comparison goes on to compare, and what it says of that. Two trees are compared filling by
filling, or the new one is sent whole. Two fillings are the same, or nothing of the old one is of
use, or the comparison goes on inside of a branch or of a list.

Proofs about patches go by these cases and leave the definitions closed.
-/

namespace ViewSync

open ViewSync.Tree

/-- Nothing of `f` is of use for `g`: another text or component, another branch or a tree of another
template in it, a list with another body, or content of another kind. -/
def Filling.SentWhole : Filling → Filling → Prop
  | .text a, .text b => a ≠ b
  | .choice _ none, .choice _ none => False
  | .choice c (some t), .choice d (some u) => c ≠ d ∨ t.shape ≠ u.shape
  | .loop old _, .loop new _ => old ≠ new
  | .stream old _ _, .stream new _ _ => old ≠ new
  | .component h _, .component k _ => h ≠ k
  | _, _ => True

/-- What is said of two fillings, and what was compared to come to that. -/
inductive Filling.Compared (kept : Places) : Filling → Filling → Option SlotChange → Prop where
  | whole {f g : Filling} : f.SentWhole g → Compared kept f g (some (.set (slot g)))
  | text {s : String} : Compared kept (.text s) (.text s) none
  | nothing {c d : Option Nat} : Compared kept (.choice c none) (.choice d none) none
  | branch {c : Option Nat} {t u : Tree} {p : Patch} : t.patchTo kept u = .ok p →
      Compared kept (.choice c (some t)) (.choice c (some u)) (nested p)
  /-- A list that was kept, under whatever body. -/
  | same {body body' : Shape} {before after : List Tree} : kept [] = true →
      Compared kept (.loop body before) (.loop body' after) none
  /-- Another number of entries. -/
  | rows {body : Shape} {before after : List Tree} : before.length ≠ after.length →
      Compared kept (.loop body before) (.loop body after) (some (.rows (rows after)))
  | entries {body : Shape} {before after : List Tree} {changes : List (Nat × Patch)} :
      before.length = after.length → changesOfEntries kept 0 before after = .ok changes →
      Compared kept (.loop body before) (.loop body after)
        (if changes.isEmpty then none else some (.rowChanges changes))
  | stream {body : Shape} {edits edits' : Option StreamEdits} {before after : List Tree} :
      Compared kept (.stream body edits before) (.stream body edits' after)
        (edits'.map fun edits => .stream edits (rows after))
  | component {h : Handle} {changed changed' : Bool} :
      Compared kept (.component h changed) (.component h changed') none

/-- Where no list was kept, all of them are compared. -/
theorem Places.not_nowhere {place : List Nat} : Places.nowhere place ≠ true := Bool.false_ne_true

namespace Tree

variable {kept : Places}

theorem checkFit_eq {s : Shape} {n : Nat} (h : n = s.arity) : checkFit s n = .ok () := if_pos h

theorem checkFit_ok {s : Shape} {n : Nat} (h : checkFit s n = .ok ()) : n = s.arity := by
  unfold checkFit at h
  split at h
  · assumption
  · cases h

/-! ## Trees -/

/-- Trees of one shape are compared filling by filling. -/
theorem patchTo_same {s : Shape} {fs gs : List Filling} {changes : List (Nat × SlotChange)}
    (hfs : fs.length = s.arity) (hgs : gs.length = s.arity)
    (h : changesOfEach kept 0 fs gs = .ok changes) :
    patchTo kept (.mk s fs) (.mk s gs) = .ok (.update changes) := by
  simp only [patchTo, checkFit_eq hfs, checkFit_eq hgs, ne_eq, not_true_eq_false, if_false, h]
  rfl

/-- A tree of another shape is sent whole. -/
theorem patchTo_other {s s' : Shape} {fs gs : List Filling} (hs : s ≠ s')
    (hgs : gs.length = s'.arity) :
    patchTo kept (.mk s fs) (.mk s' gs) = .ok (.replace (content (.mk s' gs))) := by
  simp only [patchTo, checkFit_eq hgs, if_pos hs]
  rfl

/-- What it takes for two trees to be compared, and what is said of them. -/
theorem patchTo_cases {s s' : Shape} {fs gs : List Filling} {p : Patch}
    (h : patchTo kept (.mk s fs) (.mk s' gs) = .ok p) :
    (s ≠ s' ∧ p = .replace (content (.mk s' gs))) ∨
      (s = s' ∧ fs.length = gs.length ∧
        ∃ changes, changesOfEach kept 0 fs gs = .ok changes ∧ p = .update changes) := by
  rw [patchTo] at h
  obtain ⟨⟨⟩, hgs, h⟩ := bind_ok h
  split at h
  · next hs => exact .inl ⟨hs, (Except.ok.inj h).symm⟩
  · next hs =>
      obtain ⟨⟨⟩, hfs, h⟩ := bind_ok h
      obtain ⟨changes, hchanges, h⟩ := bind_ok h
      exact .inr ⟨Decidable.not_not.mp hs, (checkFit_ok hfs).trans (checkFit_ok hgs).symm,
        changes, hchanges, (Except.ok.inj h).symm⟩

theorem patchTo_same_inv {s : Shape} {fs gs : List Filling} {p : Patch}
    (h : patchTo kept (.mk s fs) (.mk s gs) = .ok p) :
    ∃ changes, changesOfEach kept 0 fs gs = .ok changes ∧ p = .update changes := by
  obtain ⟨hs, -⟩ | ⟨-, -, hchanges⟩ := patchTo_cases h
  · exact absurd rfl hs
  · exact hchanges

/-- A tree that the client does not have is sent whole. -/
theorem eq_replace_of_patchFrom {t : Tree} {p : Patch} (h : patchFrom kept none t = .ok p) :
    p = .replace t.content := by
  rw [patchFrom] at h
  cases hfit : checkFit t.shape t.fillings.length with
  | error e =>
      rw [hfit] at h
      cases h
  | ok _ =>
      rw [hfit] at h
      exact (Except.ok.inj h).symm

/-! ## Fillings and entries, one after the other -/

theorem changesOfEach_nil (i : Nat) : changesOfEach kept i [] [] = .ok [] := by
  rw [changesOfEach]
  · rfl
  · simp

theorem changesOfEach_cons {i : Nat} {b a : Filling} {bs as : List Filling}
    {change : Option SlotChange} {rest : List (Nat × SlotChange)}
    (hchange : changeOf (kept.inside i) b a = .ok change)
    (hrest : changesOfEach kept (i + 1) bs as = .ok rest) :
    changesOfEach kept i (b :: bs) (a :: as) = .ok (consChange i change rest) := by
  simp only [changesOfEach, hchange, hrest]
  rfl

theorem changesOfEach_cons_inv {i : Nat} {b a : Filling} {bs as : List Filling}
    {changes : List (Nat × SlotChange)}
    (h : changesOfEach kept i (b :: bs) (a :: as) = .ok changes) :
    ∃ change rest, changeOf (kept.inside i) b a = .ok change ∧
      changesOfEach kept (i + 1) bs as = .ok rest ∧ changes = consChange i change rest := by
  rw [changesOfEach] at h
  obtain ⟨change, hchange, h⟩ := bind_ok h
  obtain ⟨rest, hrest, h⟩ := bind_ok h
  exact ⟨change, rest, hchange, hrest, (Except.ok.inj h).symm⟩

theorem changesOfEntries_nil (i : Nat) : changesOfEntries kept i [] [] = .ok [] := by
  rw [changesOfEntries]
  · rfl
  · simp

theorem changesOfEntries_cons {i : Nat} {b a : Tree} {bs as : List Tree} {p : Patch}
    {rest : List (Nat × Patch)} (hp : patchTo (kept.inside i) b a = .ok p)
    (hrest : changesOfEntries kept (i + 1) bs as = .ok rest) :
    changesOfEntries kept i (b :: bs) (a :: as) = .ok (consChange i (nonempty p) rest) := by
  simp only [changesOfEntries, hp, hrest]
  rfl

theorem changesOfEntries_cons_inv {i : Nat} {b a : Tree} {bs as : List Tree}
    {changes : List (Nat × Patch)}
    (h : changesOfEntries kept i (b :: bs) (a :: as) = .ok changes) :
    ∃ p rest, patchTo (kept.inside i) b a = .ok p ∧
      changesOfEntries kept (i + 1) bs as = .ok rest ∧
      changes = consChange i (nonempty p) rest := by
  rw [changesOfEntries] at h
  obtain ⟨p, hp, h⟩ := bind_ok h
  obtain ⟨rest, hrest, h⟩ := bind_ok h
  exact ⟨p, rest, hp, hrest, (Except.ok.inj h).symm⟩

/-! ## Fillings -/

/-- A list that was kept says nothing. -/
theorem changeOf_loop_kept {body body' : Shape} {before after : List Tree} (h : kept [] = true) :
    changeOf kept (.loop body before) (.loop body' after) = .ok none := by
  rw [changeOf, if_pos h]
  rfl

/-- As many entries of one body are compared one by one, where the list was not kept. -/
theorem changeOf_loop_same {body : Shape} {before after : List Tree} {changes : List (Nat × Patch)}
    (hkept : kept [] = false) (hlen : before.length = after.length)
    (h : changesOfEntries kept 0 before after = .ok changes) :
    changeOf kept (.loop body before) (.loop body after) =
      .ok (if changes.isEmpty then none else some (.rowChanges changes)) := by
  simp only [changeOf, hkept, Bool.false_eq_true, ne_eq, not_true_eq_false, if_false, hlen, h]
  rfl

/-- Two fillings can be compared as soon as what is inside of them can. -/
theorem exists_changeOf_of {f g : Filling}
    (hbranch : ∀ c d t u, f = .choice c (some t) → g = .choice d (some u) →
      ∃ p, t.patchTo kept u = .ok p)
    (hloop : ∀ body before after, f = .loop body before → g = .loop body after →
      before.length = after.length →
      ∃ changes, changesOfEntries kept 0 before after = .ok changes) :
    ∃ change, changeOf kept f g = .ok change := by
  unfold changeOf
  split
  · exact ⟨_, rfl⟩
  · exact ⟨_, rfl⟩
  · next c t d u =>
      obtain ⟨p, hp⟩ := hbranch c d t u rfl rfl
      rw [hp]
      split <;> exact ⟨_, rfl⟩
  · next old before new after =>
      split
      · exact ⟨_, rfl⟩
      split
      · exact ⟨_, rfl⟩
      · next hs =>
          obtain rfl : old = new := Decidable.not_not.mp hs
          split
          · exact ⟨_, rfl⟩
          · next hlen =>
              obtain ⟨changes, hchanges⟩ := hloop old before after rfl rfl
                (Decidable.not_not.mp hlen)
              rw [hchanges]
              exact ⟨_, rfl⟩
  · exact ⟨_, rfl⟩
  · exact ⟨_, rfl⟩
  · exact ⟨_, rfl⟩

/-- **What a comparison of two fillings has done.** -/
theorem compared_of_changeOf {f g : Filling} {change : Option SlotChange}
    (h : changeOf kept f g = .ok change) : f.Compared kept g change := by
  unfold changeOf at h
  split at h
  · next a b =>
      obtain rfl := Except.ok.inj h
      split
      · next heq => exact heq ▸ .text
      · next hne => exact .whole hne
  · obtain rfl := Except.ok.inj h
    exact .nothing
  · next c t d u =>
      split at h
      · next heq =>
          obtain ⟨p, hp, h⟩ := bind_ok h
          obtain rfl := Except.ok.inj h
          exact heq ▸ .branch hp
      · next hne =>
          obtain rfl := Except.ok.inj h
          exact .whole (.inl hne)
  · next old before new after =>
      split at h
      · next hkept =>
          obtain rfl := Except.ok.inj h
          exact .same hkept
      split at h
      · next hne =>
          obtain rfl := Except.ok.inj h
          exact .whole hne
      · next hs =>
          obtain rfl : old = new := Decidable.not_not.mp hs
          split at h
          · next hlen =>
              obtain rfl := Except.ok.inj h
              exact .rows hlen
          · next hlen =>
              obtain ⟨changes, hchanges, h⟩ := bind_ok h
              obtain rfl := Except.ok.inj h
              exact .entries (Decidable.not_not.mp hlen) hchanges
  · next old _ _ new edits entries =>
      obtain rfl := Except.ok.inj h
      split
      · next hne => exact .whole hne
      · next hs =>
          obtain rfl : old = new := Decidable.not_not.mp hs
          exact .stream
  · next a _ b _ =>
      obtain rfl := Except.ok.inj h
      split
      · next heq => exact heq ▸ .component
      · next hne => exact .whole hne
  -- fillings of two kinds
  · next htext hnothing hchoice hloop hstream hcomponent =>
      obtain rfl := Except.ok.inj h
      refine .whole ?_
      unfold Filling.SentWhole
      split
      · exact (htext _ _ rfl rfl).elim
      · exact hnothing _ _ rfl rfl
      · exact (hchoice _ _ _ _ rfl rfl).elim
      · exact (hloop _ _ _ _ rfl rfl).elim
      · exact (hstream _ _ _ _ _ _ rfl rfl).elim
      · exact (hcomponent _ _ _ _ rfl rfl).elim
      · trivial

end Tree

end ViewSync
