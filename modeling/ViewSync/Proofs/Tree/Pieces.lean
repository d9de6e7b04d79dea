import ViewSync.Proofs.Tree.Fits

/-!
# Where a page comes from

A page is put together from pieces: texts of templates, and texts that holes were filled with. The
pieces of a tree make the page of the tree, so that every character of the page is in one of them;
and what is known of the texts of the shape and of the scalars in the tree is known of the pieces.
-/

namespace ViewSync

/-! ## Scalars -/

namespace Tree

mutual

/-- The texts that holes are filled with, at every depth. -/
def scalars : Tree → List String
  | .mk _ fs => scalarsOfEach fs

/-- The texts in a filling. -/
def scalarsOf : Filling → List String
  | .text s => [s]
  | .choice _ none => []
  | .choice _ (some t) => scalars t
  | .loop _ entries => scalarsOfTrees entries
  | .stream _ _ entries => scalarsOfTrees entries
  | .component _ _ => []

/-- The texts in some fillings. -/
def scalarsOfEach : List Filling → List String
  | [] => []
  | f :: fs => scalarsOf f ++ scalarsOfEach fs

/-- The texts in some trees. -/
def scalarsOfTrees : List Tree → List String
  | [] => []
  | t :: ts => scalars t ++ scalarsOfTrees ts

end

theorem scalars_eq (t : Tree) : t.scalars = scalarsOfEach t.fillings := by
  cases t
  rfl

theorem forall_scalarsOfTrees {P : String → Prop} {ts : List Tree} :
    (∀ x ∈ scalarsOfTrees ts, P x) ↔ ∀ t ∈ ts, ∀ x ∈ scalarsOfEach t.fillings, P x := by
  induction ts with
  | nil => simp [scalarsOfTrees]
  | cons t ts ih => simp only [scalarsOfTrees, List.forall_mem_append, List.forall_mem_cons, ih,
      scalars_eq]

section Blank

variable {P : String → Prop} {gone : List Handle}

mutual

/-- Blanking adds empty text, and no other. -/
theorem forall_scalars_blank (hP : P "") : ∀ t : Tree, (∀ x ∈ t.scalars, P x) →
    ∀ x ∈ (t.blank gone).scalars, P x
  | .mk _ fs, ht => forall_scalarsOfEach_blank hP fs ht

theorem forall_scalarsOf_blank (hP : P "") : ∀ f : Filling, (∀ x ∈ scalarsOf f, P x) →
    ∀ x ∈ scalarsOf (blankFilling gone f), P x
  | .text _, hf => hf
  | .choice _ none, hf => hf
  | .choice _ (some t), hf => forall_scalars_blank hP t hf
  | .loop _ entries, hf => forall_scalarsOfTrees_blank hP entries hf
  | .stream _ _ entries, hf => forall_scalarsOfTrees_blank hP entries hf
  | .component h _, hf => by
      unfold blankFilling
      split
      · exact List.forall_mem_singleton.mpr hP
      · exact hf

theorem forall_scalarsOfEach_blank (hP : P "") : ∀ fs : List Filling,
    (∀ x ∈ scalarsOfEach fs, P x) → ∀ x ∈ scalarsOfEach (blankEach gone fs), P x
  | [], h => h
  | f :: fs, h => by
      obtain ⟨hf, hfs⟩ := List.forall_mem_append.mp h
      exact List.forall_mem_append.mpr
        ⟨forall_scalarsOf_blank hP f hf, forall_scalarsOfEach_blank hP fs hfs⟩

theorem forall_scalarsOfTrees_blank (hP : P "") : ∀ ts : List Tree, (∀ x ∈ scalarsOfTrees ts, P x) →
    ∀ x ∈ scalarsOfTrees (blankTrees gone ts), P x
  | [], h => h
  | t :: ts, h => by
      obtain ⟨ht, hts⟩ := List.forall_mem_append.mp h
      exact List.forall_mem_append.mpr
        ⟨forall_scalars_blank hP t ht, forall_scalarsOfTrees_blank hP ts hts⟩

end

end Blank

end Tree

/-! ## Texts of templates -/

mutual

/-- The texts of a shape and of the shapes inside, at every depth. -/
def Shape.statics : Shape → List String
  | .text last => [last]
  | .hole lead h rest => lead :: (h.statics ++ rest.statics)

/-- The texts of the shapes in a hole. -/
def HoleShape.statics : HoleShape → List String
  | .value => []
  | .choice shapes => Shape.staticsOfEach shapes
  | .loop body => body.statics
  | .stream _ body => body.statics
  | .component _ => []

/-- The texts of some shapes. -/
def Shape.staticsOfEach : List Shape → List String
  | [] => []
  | s :: ss => s.statics ++ Shape.staticsOfEach ss

end

/-! ## Pieces -/

/-- A piece of a page. -/
inductive Piece where
  /-- A text of a template. -/
  | static (s : String)
  /-- A text that a hole was filled with. -/
  | scalar (s : String)
  deriving DecidableEq

namespace Piece

/-- What a piece leaves in the page. -/
def text : Piece → String
  | static s => s
  | scalar s => s

/-- The page that pieces make. -/
def page : List Piece → String
  | [] => ""
  | p :: ps => p.text ++ page ps

theorem page_append (ps qs : List Piece) : page (ps ++ qs) = page ps ++ page qs := by
  induction ps with
  | nil => rw [List.nil_append, page, String.empty_append]
  | cons p ps ih => rw [List.cons_append, page, page, ih, String.append_assoc]

/-- **Every character of a page is in one of its pieces.** -/
theorem exists_of_page {ps : List Piece} {l r : List Char} {c : Char}
    (h : (page ps).toList = l ++ c :: r) :
    ∃ before p after x y, ps = before ++ p :: after ∧ p.text.toList = x ++ c :: y ∧
      l = (page before).toList ++ x ∧ r = y ++ (page after).toList := by
  induction ps generalizing l with
  | nil => cases l <;> cases h
  | cons p ps ih =>
      -- the character is in the first piece, or it is one of the rest of the page
      have hfirst : (∃ y, p.text.toList = l ++ c :: y ∧ r = y ++ (page ps).toList) ∨
          ∃ l', l = p.text.toList ++ l' ∧ (page ps).toList = l' ++ c :: r := by
        rw [page, String.toList_append] at h
        rcases List.append_eq_append_iff.mp h with ⟨l', hl, hrest⟩ | ⟨m, hp, hrest⟩
        · exact .inr ⟨l', hl, hrest⟩
        · cases m with
          | nil =>
              refine .inr ⟨[], ?_, hrest.symm⟩
              rw [hp, List.append_nil, List.append_nil]
          | cons d m =>
              obtain ⟨rfl, hr⟩ := List.cons.inj hrest
              exact .inl ⟨m, hp, hr⟩
      rcases hfirst with ⟨y, hp, hr⟩ | ⟨l', rfl, hps⟩
      · exact ⟨[], p, ps, l, y, rfl, hp, rfl, hr⟩
      · obtain ⟨before, q, after, x, y, rfl, hq, rfl, hr⟩ := ih hps
        refine ⟨p :: before, q, after, x, y, rfl, hq, ?_, hr⟩
        rw [page, String.toList_append, List.append_assoc]

end Piece

namespace Tree

/-- Texts with the pieces of what is in the holes between them. -/
def weavePieces : List String → List (List Piece) → List Piece
  | [], _ => []
  | s :: ss, holes => .static s :: (holes.headD [] ++ weavePieces ss holes.tail)

mutual

/-- The pieces of the page of a tree, given those of components. -/
def pieces (component : Handle → List Piece) : Tree → List Piece
  | .mk s fs => weavePieces s.texts (piecesOfEach component fs)

/-- The pieces that a filling leaves in the page. -/
def piecesOf (component : Handle → List Piece) : Filling → List Piece
  | .text s => [.scalar s]
  | .choice _ none => []
  | .choice _ (some t) => pieces component t
  | .loop _ entries => piecesOfTrees component entries
  | .stream _ _ entries => piecesOfTrees component entries
  | .component h _ => component h

/-- The pieces that each filling leaves in the page. -/
def piecesOfEach (component : Handle → List Piece) : List Filling → List (List Piece)
  | [] => []
  | f :: fs => piecesOf component f :: piecesOfEach component fs

/-- The pieces of some trees, one behind the other. -/
def piecesOfTrees (component : Handle → List Piece) : List Tree → List Piece
  | [] => []
  | t :: ts => pieces component t ++ piecesOfTrees component ts

end

theorem page_weavePieces (ss : List String) (holes : List (List Piece)) :
    Piece.page (weavePieces ss holes) = weave ss (holes.map Piece.page) := by
  induction ss generalizing holes with
  | nil => rfl
  | cons s ss ih =>
      have hhead : Piece.page (holes.headD []) = (holes.map Piece.page).headD "" := by
        cases holes <;> rfl
      rw [weavePieces, Piece.page, Piece.page_append, ih, hhead, weave, List.map_tail,
        String.append_assoc]
      rfl

section Page

variable {f : Handle → String} {component : Handle → List Piece}

mutual

/-- **The pieces of a tree make its page.** -/
theorem page_pieces (hc : ∀ h, Piece.page (component h) = f h) : ∀ t : Tree,
    Piece.page (t.pieces component) = t.html f
  | .mk s fs => by rw [pieces, Tree.html, page_weavePieces, map_page_piecesOfEach hc fs]

theorem page_piecesOf (hc : ∀ h, Piece.page (component h) = f h) : ∀ x : Filling,
    Piece.page (piecesOf component x) = htmlOf f x
  | .text s => by
      rw [piecesOf, Piece.page, Piece.page, String.append_empty]
      rfl
  | .choice _ none => rfl
  | .choice _ (some t) => page_pieces hc t
  | .loop _ entries => page_piecesOfTrees hc entries
  | .stream _ _ entries => page_piecesOfTrees hc entries
  | .component h _ => hc h

theorem map_page_piecesOfEach (hc : ∀ h, Piece.page (component h) = f h) :
    ∀ fs : List Filling,
    (piecesOfEach component fs).map Piece.page = htmlOfEach f fs
  | [] => rfl
  | x :: fs => by
      rw [piecesOfEach, htmlOfEach, List.map_cons, page_piecesOf hc x, map_page_piecesOfEach hc fs]

theorem page_piecesOfTrees (hc : ∀ h, Piece.page (component h) = f h) : ∀ ts : List Tree,
    Piece.page (piecesOfTrees component ts) = htmlOfTrees f ts
  | [] => rfl
  | t :: ts => by
      rw [piecesOfTrees, htmlOfTrees, Piece.page_append, page_pieces hc t, page_piecesOfTrees hc ts]

end

end Page

theorem forall_piecesOfTrees {Q : Piece → Prop} {component : Handle → List Piece}
    {ts : List Tree} (h : ∀ t ∈ ts, ∀ p ∈ t.pieces component, Q p) :
    ∀ p ∈ piecesOfTrees component ts, Q p := by
  induction ts with
  | nil => exact List.forall_mem_nil _
  | cons t ts ih =>
      obtain ⟨ht, hts⟩ := List.forall_mem_cons.mp h
      exact List.forall_mem_append.mpr ⟨ht, ih hts⟩

end Tree

section Fits

open ViewSync.Tree

variable {Q : Piece → Prop} {component : Handle → List Piece}

mutual

/-- The pieces of fillings that fit are texts of the shape and scalars, and pieces of components. -/
theorem Shape.forall_pieces (hc : ∀ h, ∀ p ∈ component h, Q p) :
    ∀ (s : Shape) (fs : List Filling), s.Fits fs →
    (∀ x ∈ s.statics, Q (.static x)) → (∀ x ∈ scalarsOfEach fs, Q (.scalar x)) →
    ∀ p ∈ weavePieces s.texts (piecesOfEach component fs), Q p
  | .text last, fs, hfits, hstatics, _ => by
      obtain rfl : fs = [] := hfits
      exact List.forall_mem_singleton.mpr (hstatics last List.mem_cons_self)
  | .hole lead h rest, f :: fs, hfits, hstatics, hscalars => by
      obtain ⟨hlead, hstatics⟩ := List.forall_mem_cons.mp hstatics
      obtain ⟨hown, hrest⟩ := List.forall_mem_append.mp hstatics
      obtain ⟨hf, hfs⟩ := List.forall_mem_append.mp hscalars
      have hhole := h.forall_pieces hc f hfits.1 hown hf
      have htail := rest.forall_pieces hc fs hfits.2 hrest hfs
      exact List.forall_mem_cons.mpr ⟨hlead, List.forall_mem_append.mpr ⟨hhole, htail⟩⟩

theorem HoleShape.forall_pieces (hc : ∀ h, ∀ p ∈ component h, Q p) :
    ∀ (h : HoleShape) (f : Filling), h.Fits f →
    (∀ x ∈ h.statics, Q (.static x)) → (∀ x ∈ scalarsOf f, Q (.scalar x)) →
    ∀ p ∈ piecesOf component f, Q p
  | .value, .text x, _, _, hscalars => List.forall_mem_singleton.mpr (hscalars x List.mem_cons_self)
  | .choice _, .choice none none, _, _, _ => List.forall_mem_nil _
  | .choice shapes, .choice (some i) (some t), hfits, hstatics, hscalars =>
      Shape.forall_pieces_at hc shapes i t hfits hstatics hscalars
  | .loop body, .loop _ entries, hfits, hstatics, hscalars => by
      refine forall_piecesOfTrees fun t ht => ?_
      obtain ⟨s, fs⟩ := t
      obtain ⟨hshape, hbody⟩ : s = body ∧ body.Fits fs := hfits.2 _ ht
      rw [pieces, hshape]
      exact body.forall_pieces hc fs hbody hstatics (forall_scalarsOfTrees.mp hscalars _ ht)
  | .stream _ body, .stream _ _ entries, hfits, hstatics, hscalars => by
      refine forall_piecesOfTrees fun t ht => ?_
      obtain ⟨s, fs⟩ := t
      obtain ⟨hshape, hbody⟩ : s = body ∧ body.Fits fs := hfits.2.2 _ ht
      rw [pieces, hshape]
      exact body.forall_pieces hc fs hbody hstatics (forall_scalarsOfTrees.mp hscalars _ ht)
  | .component _, .component h _, _, _, _ => hc h
  | .component _, .text x, _, _, hscalars =>
      List.forall_mem_singleton.mpr (hscalars x List.mem_cons_self)

theorem Shape.forall_pieces_at (hc : ∀ h, ∀ p ∈ component h, Q p) :
    ∀ (ss : List Shape) (i : Nat) (t : Tree), Shape.FitsAt ss i t →
    (∀ x ∈ Shape.staticsOfEach ss, Q (.static x)) → (∀ x ∈ t.scalars, Q (.scalar x)) →
    ∀ p ∈ t.pieces component, Q p
  | s :: _, 0, .mk s' fs, hfits, hstatics, hscalars => by
      obtain ⟨hshape, hfits⟩ : s' = s ∧ s.Fits fs := hfits
      rw [pieces, hshape]
      exact s.forall_pieces hc fs hfits (List.forall_mem_append.mp hstatics).1 hscalars
  | _ :: ss, i + 1, t, hfits, hstatics, hscalars =>
      Shape.forall_pieces_at hc ss i t hfits (List.forall_mem_append.mp hstatics).2 hscalars

end

/-- **What is true of the texts of its shape, of its scalars and of the pieces of components is true
of all pieces of a tree that fits.** -/
theorem Tree.Fits.forall_pieces {t : Tree} (ht : t.Fits) (hc : ∀ h, ∀ p ∈ component h, Q p)
    (hstatics : ∀ x ∈ t.shape.statics, Q (.static x)) (hscalars : ∀ x ∈ t.scalars, Q (.scalar x)) :
    ∀ p ∈ t.pieces component, Q p := by
  obtain ⟨s, fs⟩ := t
  exact s.forall_pieces hc fs ht hstatics hscalars

end Fits

end ViewSync
