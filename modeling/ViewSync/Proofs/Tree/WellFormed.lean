import ViewSync.Proofs.Tree.Fits

/-!
# Well-formed trees

What has to be true of a tree for it to be compared with others at all, whatever template it may
come from: one filling for each hole, entries with the shape of their list's body, and a tree just
where a branch was chosen, at every depth. Of what kind a filling is, or which branch a tree belongs
to, does not matter here, so that two well-formed trees of one shape may still differ in both.

A tree that fits its shape is well-formed, and has no stream in it if its shape has none.
-/

namespace ViewSync.Tree

mutual

/-- One filling for each hole, and well-formed fillings. -/
def WellFormed : Tree → Prop
  | .mk s fs => fs.length = s.arity ∧ WellFormedEach fs

/-- A filling that holds well-formed trees, as many as it should. -/
def WellFormedFilling : Filling → Prop
  | .text _ => True
  | .choice none none => True
  | .choice (some _) (some t) => WellFormed t
  | .choice _ _ => False
  | .loop body entries => EntriesOf body entries
  | .stream body _ entries => EntriesOf body entries
  | .component _ _ => True

/-- Well-formed fillings. -/
def WellFormedEach : List Filling → Prop
  | [] => True
  | f :: fs => WellFormedFilling f ∧ WellFormedEach fs

/-- Well-formed trees of one shape. -/
def EntriesOf (body : Shape) : List Tree → Prop
  | [] => True
  | t :: ts => (t.shape = body ∧ WellFormed t) ∧ EntriesOf body ts

end

mutual

/-- No stream anywhere in a tree. -/
def Streamless : Tree → Prop
  | .mk _ fs => StreamlessEach fs

/-- No stream in a filling. -/
def StreamlessFilling : Filling → Prop
  | .text _ => True
  | .choice _ none => True
  | .choice _ (some t) => Streamless t
  | .loop _ entries => StreamlessTrees entries
  | .stream _ _ _ => False
  | .component _ _ => True

/-- No stream in some fillings. -/
def StreamlessEach : List Filling → Prop
  | [] => True
  | f :: fs => StreamlessFilling f ∧ StreamlessEach fs

/-- No stream in some trees. -/
def StreamlessTrees : List Tree → Prop
  | [] => True
  | t :: ts => Streamless t ∧ StreamlessTrees ts

end

theorem WellFormedFilling.branch {c : Option Nat} {t : Tree}
    (h : WellFormedFilling (.choice c (some t))) : t.WellFormed := by
  cases c with
  | none => exact h.elim
  | some c => exact h

theorem entriesOf_iff {body : Shape} {ts : List Tree} :
    EntriesOf body ts ↔ ∀ t ∈ ts, t.shape = body ∧ t.WellFormed := by
  induction ts with
  | nil => simp [EntriesOf]
  | cons t ts ih => simp only [EntriesOf, ih, List.forall_mem_cons]

theorem streamlessTrees_iff {ts : List Tree} : StreamlessTrees ts ↔ ∀ t ∈ ts, t.Streamless := by
  induction ts with
  | nil => simp [StreamlessTrees]
  | cons t ts ih => simp only [StreamlessTrees, ih, List.forall_mem_cons]

end ViewSync.Tree

namespace ViewSync

open ViewSync.Tree

/-! ## Trees that fit -/

mutual

theorem Shape.wellFormed_of_fits : ∀ (s : Shape) (fs : List Filling), s.Fits fs →
    fs.length = s.arity ∧ WellFormedEach fs
  | .text _, fs, h => by
      obtain rfl : fs = [] := h
      exact ⟨rfl, trivial⟩
  | .hole _ hole rest, f :: fs, h => by
      obtain ⟨hlen, hfs⟩ := rest.wellFormed_of_fits fs h.2
      exact ⟨congrArg Nat.succ hlen, hole.wellFormed_of_fits f h.1, hfs⟩

theorem HoleShape.wellFormed_of_fits : ∀ (h : HoleShape) (f : Filling), h.Fits f →
    WellFormedFilling f
  | .value, .text _, _ => trivial
  | .choice _, .choice none none, _ => trivial
  | .choice shapes, .choice (some i) (some t), h => Shape.wellFormed_of_fitsAt shapes i t h
  | .loop body, .loop shape entries, h => by
      refine entriesOf_iff.mpr fun t ht => ?_
      obtain ⟨hshape, hfits⟩ := h.2 t ht
      obtain ⟨s, fs⟩ := t
      have hwf := body.wellFormed_of_fits fs hfits
      rw [← hshape] at hwf
      exact ⟨hshape.trans h.1.symm, hwf⟩
  | .stream _ body, .stream shape _ entries, h => by
      refine entriesOf_iff.mpr fun t ht => ?_
      obtain ⟨hshape, hfits⟩ := h.2.2 t ht
      obtain ⟨s, fs⟩ := t
      have hwf := body.wellFormed_of_fits fs hfits
      rw [← hshape] at hwf
      exact ⟨hshape.trans h.1.symm, hwf⟩
  | .component _, .component _ _, _ => trivial
  | .component _, .text _, _ => trivial

theorem Shape.wellFormed_of_fitsAt : ∀ (ss : List Shape) (i : Nat) (t : Tree),
    Shape.FitsAt ss i t → t.WellFormed
  | s :: _, 0, .mk _ fs, h => by
      have hwf := s.wellFormed_of_fits fs h.2
      rw [← h.1] at hwf
      exact hwf
  | _ :: ss, i + 1, t, h => Shape.wellFormed_of_fitsAt ss i t h

end

theorem Tree.Fits.wellFormed {t : Tree} (h : t.Fits) : t.WellFormed := by
  obtain ⟨s, fs⟩ := t
  exact s.wellFormed_of_fits fs h

mutual

theorem Shape.streamless_of_fits : ∀ (s : Shape) (fs : List Filling), s.StreamFree → s.Fits fs →
    StreamlessEach fs
  | .text _, fs, _, h => by
      obtain rfl : fs = [] := h
      trivial
  | .hole _ hole rest, f :: fs, hfree, h =>
      ⟨hole.streamless_of_fits f hfree.1 h.1, rest.streamless_of_fits fs hfree.2 h.2⟩

theorem HoleShape.streamless_of_fits : ∀ (h : HoleShape) (f : Filling), h.StreamFree → h.Fits f →
    StreamlessFilling f
  | .value, .text _, _, _ => trivial
  | .choice _, .choice none none, _, _ => trivial
  | .choice shapes, .choice (some i) (some t), hfree, h =>
      Shape.streamless_of_fitsAt shapes i t hfree h
  | .loop body, .loop _ entries, hfree, h => by
      refine streamlessTrees_iff.mpr fun t ht => ?_
      obtain ⟨s, fs⟩ := t
      exact body.streamless_of_fits fs hfree (h.2 _ ht).2
  | .component _, .component _ _, _, _ => trivial
  | .component _, .text _, _, _ => trivial

theorem Shape.streamless_of_fitsAt : ∀ (ss : List Shape) (i : Nat) (t : Tree),
    Shape.AllStreamFree ss → Shape.FitsAt ss i t → t.Streamless
  | s :: _, 0, .mk _ fs, hfree, h => s.streamless_of_fits fs hfree.1 h.2
  | _ :: ss, i + 1, t, hfree, h => Shape.streamless_of_fitsAt ss i t hfree.2 h

end

theorem Tree.Fits.streamless {t : Tree} (h : t.Fits) (hfree : t.shape.StreamFree) :
    t.Streamless := by
  obtain ⟨s, fs⟩ := t
  exact s.streamless_of_fits fs hfree h

end ViewSync
