import ViewSync.Proofs.Patch.Comparison
import ViewSync.Proofs.Tree.Fits

/-!
# Lists that were kept

Nothing is said of a list that was kept. Its entries are those of the old list, so that this is
right as long as the list stands under the body that it had. An empty list fits every body: were it
kept under another one, then the client would be left with texts of the old body. That does not come
about in trees that fit their shapes, as two of one shape have one body in each hole.

`Meets` follows a comparison down to the fillings that it comes to, and tells their place.
-/

namespace ViewSync

mutual

/-- The comparison of two trees comes to two fillings at a place. -/
inductive Tree.Meets : Tree → Tree → List Nat → Filling → Filling → Prop where
  | hole {s : Shape} {fs gs : List Filling} {i : Nat} {f g f' g' : Filling} {place : List Nat} :
      fs[i]? = some f → gs[i]? = some g → Filling.Meets f g place f' g' →
      Tree.Meets (.mk s fs) (.mk s gs) (i :: place) f' g'

/-- The comparison of two fillings comes to two fillings at a place inside of them. -/
inductive Filling.Meets : Filling → Filling → List Nat → Filling → Filling → Prop where
  | here {f g : Filling} : Filling.Meets f g [] f g
  | branch {c : Option Nat} {t u : Tree} {f g : Filling} {place : List Nat} :
      Tree.Meets t u place f g →
      Filling.Meets (.choice c (some t)) (.choice c (some u)) place f g
  | entry {body : Shape} {before after : List Tree} {j : Nat} {t u : Tree} {f g : Filling}
      {place : List Nat} : before[j]? = some t → after[j]? = some u → Tree.Meets t u place f g →
      Filling.Meets (.loop body before) (.loop body after) (j :: place) f g

end

/-- Two lists have the same entries, whatever their bodies. -/
def Filling.SameEntries : Filling → Filling → Prop
  | .loop _ before, .loop _ after => before = after
  | _, _ => False

/-- How the lists in one tree that were kept go together with those that they were kept from. -/
def Tree.KeptBy (R : Filling → Filling → Prop) (kept : Places) (t u : Tree) : Prop :=
  ∀ place old before new after, t.Meets u place (.loop old before) (.loop new after) →
    kept place = true → R (.loop old before) (.loop new after)

/-- The same of the lists inside of fillings. -/
def Filling.KeptBy (R : Filling → Filling → Prop) (kept : Places) (f g : Filling) : Prop :=
  ∀ place old before new after, f.Meets g place (.loop old before) (.loop new after) →
    kept place = true → R (.loop old before) (.loop new after)

/-- Where no list was kept there is nothing to ask for. -/
theorem Tree.keptBy_nowhere {R : Filling → Filling → Prop} (t u : Tree) : t.KeptBy R .nowhere u :=
  fun _ _ _ _ _ _ hkept => absurd hkept Places.not_nowhere

/-! ## Down a comparison -/

/-- What is true of two lists, member by member, each at its place from a position on. -/
def Places.Along {α : Type} (P : Places → α → α → Prop) (kept : Places) (i : Nat) (xs ys : List α) :
    Prop :=
  ∀ j x y, xs[j]? = some x → ys[j]? = some y → P (kept.inside (i + j)) x y

namespace Places.Along

variable {α : Type} {P : Places → α → α → Prop} {kept : Places} {i : Nat} {x y : α} {xs ys : List α}

theorem head (h : Along P kept i (x :: xs) (y :: ys)) : P (kept.inside i) x y := h 0 x y rfl rfl

theorem tail (h : Along P kept i (x :: xs) (y :: ys)) : Along P kept (i + 1) xs ys := by
  intro j x' y' hx hy
  rw [Nat.add_right_comm]
  exact h (j + 1) x' y' hx hy

end Places.Along

variable {R : Filling → Filling → Prop} {kept : Places}

/-- The same of the lists in some fillings, from a position on. -/
abbrev Filling.KeptByEach (R : Filling → Filling → Prop) : Places → Nat → List Filling →
    List Filling → Prop := Places.Along fun kept f g => f.KeptBy R kept g

/-- The same of the lists in some entries, from a position on. -/
abbrev Tree.KeptByEach (R : Filling → Filling → Prop) : Places → Nat → List Tree → List Tree →
    Prop := Places.Along fun kept t u => t.KeptBy R kept u

theorem Tree.KeptBy.fillings {s : Shape} {fs gs : List Filling}
    (h : Tree.KeptBy R kept (.mk s fs) (.mk s gs)) : Filling.KeptByEach R kept 0 fs gs := by
  intro j f g hf hg place old before new after hmeets hkept
  rw [Nat.zero_add] at hkept
  exact h (j :: place) old before new after (.hole hf hg hmeets) hkept

theorem Filling.KeptBy.here {old new : Shape} {before after : List Tree}
    (h : Filling.KeptBy R kept (.loop old before) (.loop new after)) (hkept : kept [] = true) :
    R (.loop old before) (.loop new after) := h [] old before new after .here hkept

theorem Filling.KeptBy.branch {c : Option Nat} {t u : Tree}
    (h : Filling.KeptBy R kept (.choice c (some t)) (.choice c (some u))) : t.KeptBy R kept u :=
  fun place old before new after hmeets => h place old before new after (.branch hmeets)

theorem Filling.KeptBy.entries {body : Shape} {before after : List Tree}
    (h : Filling.KeptBy R kept (.loop body before) (.loop body after)) :
    Tree.KeptByEach R kept 0 before after := by
  intro j t u ht hu place old ts new us hmeets hkept
  rw [Nat.zero_add] at hkept
  exact h (j :: place) old ts new us (.entry ht hu hmeets) hkept

/-! ## Two lists in one place -/

mutual

/-- Comparing a tree with itself, one comes to nothing but the same filling twice. -/
theorem Tree.Meets.eq_of_eq {t u : Tree} {place : List Nat} {f g : Filling} :
    t.Meets u place f g → t = u → f = g
  | .hole hf hg hmeets, heq => by
      obtain rfl := (Tree.mk.inj heq).2
      exact hmeets.eq_of_eq (Option.some.inj (hf.symm.trans hg))

theorem Filling.Meets.eq_of_eq {f g : Filling} {place : List Nat} {f' g' : Filling} :
    f.Meets g place f' g' → f = g → f' = g'
  | .here, heq => heq
  | .branch hmeets, heq => hmeets.eq_of_eq (Option.some.inj (Filling.choice.inj heq).2)
  | .entry ht hu hmeets, heq => by
      obtain rfl := (Filling.loop.inj heq).2
      exact hmeets.eq_of_eq (Option.some.inj (ht.symm.trans hu))

end

/-- In a tree that is compared with itself, every list may be taken for kept. -/
theorem Tree.keptBy_self (t : Tree) : t.KeptBy (· = ·) kept t :=
  fun _ _ _ _ _ hmeets _ => hmeets.eq_of_eq rfl

theorem Shape.Fits.at_position : ∀ {s : Shape} {fs : List Filling} {i : Nat} {f : Filling},
    s.Fits fs → fs[i]? = some f → ∃ h : HoleShape, s.holes[i]? = some h ∧ h.Fits f
  | .text _, _, _, _, hfits, hf => by
      obtain rfl := hfits
      cases hf
  | .hole _ h _, _ :: _, 0, _, hfits, hf => by
      obtain rfl := Option.some.inj hf
      exact ⟨h, rfl, hfits.1⟩
  | .hole _ _ rest, _ :: _, i + 1, _, hfits, hf => Shape.Fits.at_position (s := rest) hfits.2 hf

theorem HoleShape.Fits.branch {h : HoleShape} {c : Option Nat} {t : Tree}
    (hfits : h.Fits (.choice c (some t))) : t.Fits := by
  cases h with
  | choice shapes =>
      cases c with
      | none => exact hfits.elim
      | some i => exact (Shape.fitsAt_iff.mp hfits).2
  | _ => cases c <;> exact hfits.elim

theorem HoleShape.Fits.entry {h : HoleShape} {body : Shape} {entries : List Tree}
    (hfits : h.Fits (.loop body entries)) {t : Tree} (ht : t ∈ entries) : t.Fits := by
  cases h with
  | loop body' => exact Tree.fits_of_shape_eq (hfits.2 t ht)
  | _ => exact hfits.elim

/-- A list in a hole has the body of the hole. -/
theorem HoleShape.Fits.body_eq {h : HoleShape} {old new : Shape} {before after : List Tree}
    (hold : h.Fits (.loop old before)) (hnew : h.Fits (.loop new after)) : old = new := by
  cases h with
  | loop body => exact hold.1.trans hnew.1.symm
  | _ => exact hold.elim

mutual

/-- Comparing trees that fit, one comes to fillings of one and the same hole. -/
theorem Tree.Meets.fits {t u : Tree} {place : List Nat} {f g : Filling} :
    t.Meets u place f g → t.Fits → u.Fits → ∃ h : HoleShape, h.Fits f ∧ h.Fits g
  | .hole hf hg hmeets, ht, hu => by
      obtain ⟨h, hh, hfit⟩ := Shape.Fits.at_position ht hf
      obtain ⟨h', hh', hfit'⟩ := Shape.Fits.at_position hu hg
      obtain rfl := Option.some.inj (hh.symm.trans hh')
      exact hmeets.fits hfit hfit'

theorem Filling.Meets.fits {f g : Filling} {place : List Nat} {f' g' : Filling} {h : HoleShape} :
    f.Meets g place f' g' → h.Fits f → h.Fits g → ∃ h' : HoleShape, h'.Fits f' ∧ h'.Fits g'
  | .here, hf, hg => ⟨h, hf, hg⟩
  | .branch hmeets, hf, hg => hmeets.fits hf.branch hg.branch
  | .entry ht hu hmeets, hf, hg =>
      hmeets.fits (hf.entry (List.mem_of_getElem? ht)) (hg.entry (List.mem_of_getElem? hu))

end

/-- **In trees that fit, a list that was kept with its entries was kept with its body.** -/
theorem Tree.Fits.keptBy {t u : Tree} (ht : t.Fits) (hu : u.Fits)
    (h : t.KeptBy Filling.SameEntries kept u) : t.KeptBy (· = ·) kept u := by
  intro place old before new after hmeets hkept
  obtain ⟨hole, hold, hnew⟩ := hmeets.fits ht hu
  obtain rfl : before = after := h place old before new after hmeets hkept
  obtain rfl := hold.body_eq hnew
  rfl

end ViewSync
