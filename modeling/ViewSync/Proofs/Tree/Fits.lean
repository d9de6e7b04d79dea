import ViewSync.Tree

/-!
# Trees that fit

A tree fits its shape when there is one filling for each hole, of the kind that the hole calls for,
at every depth. A component hole may also be empty: the text that stands there when a reference
fails, or when the component was dropped. What the trees of a view are compared and kept by is their
shape alone, so this is what has to be true of all of them.
-/

namespace ViewSync

mutual

/-- One filling for each hole, of the kind that the hole calls for. -/
def Shape.Fits : Shape → List Filling → Prop
  | .text _, fs => fs = []
  | .hole .., [] => False
  | .hole _ h rest, f :: fs => h.Fits f ∧ rest.Fits fs

/-- A filling of the kind that a hole calls for. -/
def HoleShape.Fits : HoleShape → Filling → Prop
  | .value, .text _ => True
  | .choice _, .choice none none => True
  | .choice shapes, .choice (some i) (some t) => Shape.FitsAt shapes i t
  | .loop body, .loop shape entries =>
    shape = body ∧ ∀ t ∈ entries, t.shape = body ∧ body.Fits t.fillings
  | .stream _ body, .stream shape edits entries =>
    shape = body ∧ entries.length = edits.elim 0 (·.inserts.length) ∧
      ∀ t ∈ entries, t.shape = body ∧ body.Fits t.fillings
  | .component _, .component .. => True
  | .component _, .text s => s = ""
  | _, _ => False

/-- A tree of the shape at a position of a list, which fits. -/
def Shape.FitsAt : List Shape → Nat → Tree → Prop
  | [], _, _ => False
  | s :: _, 0, t => t.shape = s ∧ s.Fits t.fillings
  | _ :: ss, n + 1, t => Shape.FitsAt ss n t

end

/-- A tree fits its shape. -/
def Tree.Fits (t : Tree) : Prop := t.shape.Fits t.fillings

theorem Tree.fits_of_shape_eq {t : Tree} {s : Shape} (h : t.shape = s ∧ s.Fits t.fillings) :
    t.Fits := by
  obtain ⟨rfl, h⟩ := h
  exact h

namespace Shape

theorem fitsAt_iff {ss : List Shape} {i : Nat} {t : Tree} :
    FitsAt ss i t ↔ ss[i]? = some t.shape ∧ t.Fits := by
  induction ss generalizing i with
  | nil => simp [FitsAt]
  | cons s ss ih =>
      cases i with
      | zero =>
          simp only [FitsAt, List.getElem?_cons_zero, Option.some.injEq, Tree.Fits]
          constructor
          · rintro ⟨rfl, h⟩
            exact ⟨rfl, h⟩
          · rintro ⟨rfl, h⟩
            exact ⟨rfl, h⟩
      | succ i => simpa [FitsAt] using ih

end Shape

/-! ## Shapes without streams -/

mutual

/-- No stream anywhere in a shape. -/
def Shape.StreamFree : Shape → Prop
  | .text _ => True
  | .hole _ h rest => h.StreamFree ∧ rest.StreamFree

/-- No stream in a hole. -/
def HoleShape.StreamFree : HoleShape → Prop
  | .value => True
  | .choice shapes => Shape.AllStreamFree shapes
  | .loop body => body.StreamFree
  | .stream .. => False
  | .component _ => True

/-- No stream in any of some shapes. -/
def Shape.AllStreamFree : List Shape → Prop
  | [] => True
  | s :: ss => s.StreamFree ∧ Shape.AllStreamFree ss

end

/-! ## Blanking -/

namespace Tree

theorem shape_blank (gone : List Handle) (t : Tree) : (blank gone t).shape = t.shape := by
  cases t
  rfl

theorem fillings_blank (gone : List Handle) (t : Tree) :
    (blank gone t).fillings = blankEach gone t.fillings := by
  cases t
  rfl

theorem blankTrees_eq_map (gone : List Handle) (ts : List Tree) :
    blankTrees gone ts = ts.map (blank gone) := by
  induction ts with
  | nil => rfl
  | cons t ts ih => simp [blankTrees, ih]

end Tree

open ViewSync.Tree

mutual

/-- **Blanking leaves a tree that fits.** Only component holes are emptied. -/
theorem Shape.fits_blankEach (gone : List Handle) :
    ∀ (s : Shape) (fs : List Filling), s.Fits fs → s.Fits (blankEach gone fs)
  | .text _, fs, h => by
      obtain rfl : fs = [] := h
      rfl
  | .hole .., [], h => h
  | .hole _ hole rest, f :: fs, h =>
      ⟨hole.fits_blankFilling gone f h.1, rest.fits_blankEach gone fs h.2⟩

theorem HoleShape.fits_blankFilling (gone : List Handle) :
    ∀ (h : HoleShape) (f : Filling), h.Fits f → h.Fits (blankFilling gone f)
  | .value, .text _, _ => trivial
  | .choice _, .choice none none, _ => trivial
  | .choice shapes, .choice (some i) (some t), h =>
      Shape.fitsAt_blank gone shapes i t h
  | .loop body, .loop shape entries, h => by
      refine ⟨h.1, fun t ht => ?_⟩
      rw [blankTrees_eq_map] at ht
      obtain ⟨u, hu, rfl⟩ := List.mem_map.mp ht
      rw [shape_blank, fillings_blank]
      exact ⟨(h.2 u hu).1, body.fits_blankEach gone _ (h.2 u hu).2⟩
  | .stream _ body, .stream shape edits entries, h => by
      refine ⟨h.1, ?_, fun t ht => ?_⟩
      · rw [blankTrees_eq_map, List.length_map]
        exact h.2.1
      · rw [blankTrees_eq_map] at ht
        obtain ⟨u, hu, rfl⟩ := List.mem_map.mp ht
        rw [shape_blank, fillings_blank]
        exact ⟨(h.2.2 u hu).1, body.fits_blankEach gone _ (h.2.2 u hu).2⟩
  | .component _, .component _ _, _ => by
      unfold blankFilling
      split
      · rfl
      · trivial
  | .component _, .text _, h => h

theorem Shape.fitsAt_blank (gone : List Handle) :
    ∀ (ss : List Shape) (i : Nat) (t : Tree), Shape.FitsAt ss i t → Shape.FitsAt ss i (blank gone t)
  | s :: _, 0, t, h => by
      refine ⟨(shape_blank gone t).trans h.1, ?_⟩
      rw [fillings_blank]
      exact s.fits_blankEach gone _ h.2
  | _ :: ss, n + 1, t, h => Shape.fitsAt_blank gone ss n t h

end

theorem Tree.Fits.blank {t : Tree} (h : t.Fits) (gone : List Handle) : (blank gone t).Fits := by
  unfold Fits
  rw [shape_blank, fillings_blank]
  exact t.shape.fits_blankEach gone _ h

end ViewSync
