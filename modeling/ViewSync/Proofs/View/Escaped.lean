import ViewSync.Proofs.Pass.Scalars
import ViewSync.Proofs.Text.Escape
import ViewSync.Proofs.View.Built
import ViewSync.Proofs.View.Inherited

/-!
# Pages with escaping

With escaping on, every text that a hole is filled with was escaped: the one that a value left in
this pass, the one that is kept of an earlier pass, and the empty one in place of a component. So
none of them has markup in it, each can be read back, and whatever markup there is in a page, with
the pages of components inside it, is that of templates.
-/

namespace ViewSync

variable {host : Host} {P : String → Prop}

/-- All scalars in a tree are nothing but text, and are what escaping writes for the text that is
read back from them. -/
def Tree.Escaped (t : Tree) : Prop :=
  ∀ x ∈ t.scalars, Text.Inert x ∧ Text.escape (Text.unescape x) = x

/-! ## What is left in pages -/

/-- Escaped text is escaped. -/
theorem Text.escaped (s : String) :
    Text.Inert (Text.escape s) ∧ Text.escape (Text.unescape (Text.escape s)) = Text.escape s :=
  ⟨Text.inert_escape s, congrArg Text.escape (Text.unescape_escape s)⟩

/-- With escaping on, a host leaves nothing else in pages. -/
theorem Host.leaves_escaped (he : host.config.escapeHtml = true) :
    host.Leaves fun x => Text.Inert x ∧ Text.escape (Text.unescape x) = x where
  empty := Text.escaped ""
  value v := by
    rw [he]
    exact Text.escaped v.rawText

/-- What is true of all that a host leaves in pages is handed down from tree to tree. -/
theorem Host.Leaves.handsDown (hP : host.Leaves P) :
    host.HandsDown fun t => ∀ x ∈ t.scalars, P x where
  blank t _ ht := Tree.forall_scalars_blank hP.empty t ht
  template _ _ _ _ _ hb h := Pass.forall_scalars_template hP h hb

/-! ## The pieces of pages -/

namespace Roster

/-- The pieces of the page of a component, the components inside it included down to some depth. -/
def piecesOf (r : Roster) : Nat → Handle → List Piece
  | 0, _ => []
  | n + 1, h =>
    match r.tree? h with
    | some t => t.pieces (r.piecesOf n)
    | none => []

/-- The pieces of the page of a tree. -/
def pieces (r : Roster) (t : Tree) : List Piece := t.pieces (r.piecesOf (r.slots.length + 1))

variable {r : Roster}

theorem page_piecesOf (r : Roster) (n : Nat) (h : Handle) :
    Piece.page (r.piecesOf n h) = r.htmlOf n h := by
  induction n generalizing h with
  | zero => rfl
  | succ n ih =>
      unfold piecesOf htmlOf
      cases r.tree? h with
      | none => rfl
      | some t => exact Tree.page_pieces ih t

/-- The pieces of a tree make its page, with the components inside it. -/
theorem page_pieces (r : Roster) (t : Tree) : Piece.page (r.pieces t) = r.html t :=
  Tree.page_pieces (r.page_piecesOf (r.slots.length + 1)) t

/-- What is true of the pieces of all trees of components is true of the pieces of their pages. -/
theorem forall_piecesOf {Q : Piece → Prop}
    (hr : ∀ h t, r.tree? h = some t → t.Fits ∧ (∀ x ∈ t.shape.statics, Q (.static x)) ∧
      ∀ x ∈ t.scalars, Q (.scalar x)) (n : Nat) (h : Handle) : ∀ p ∈ r.piecesOf n h, Q p := by
  induction n generalizing h with
  | zero => exact List.forall_mem_nil _
  | succ n ih =>
      unfold piecesOf
      split
      · next t ht =>
          obtain ⟨hfits, hstatics, hscalars⟩ := hr h t ht
          exact hfits.forall_pieces ih hstatics hscalars
      · exact List.forall_mem_nil _

end Roster

namespace View

open Roster

variable {root : Template} {v : View}

/-- The pieces that the page of a view is made of. -/
def pieces (v : View) : Option (List Piece) := v.sent.map v.roster.pieces

/-- A text stands in a template that a view is made from, at whatever depth: in that of the root or
in that of a component at some assigns. -/
def Says (host : Host) (root : Template) (s : String) : Prop :=
  s ∈ root.shape.statics ∨ ∃ key a, s ∈ ((host.kinds key).render a).shape.statics

/-- A piece of a page is a text of a template, or nothing but text. -/
def Comes (host : Host) (root : Template) : Piece → Prop
  | .static s => Says host root s
  | .scalar s => Text.Inert s

/-- A character of a page, between what is before and what is behind it there, is one of a text that
stands in a template. -/
def IsSaid (host : Host) (root : Template) (ps : List Piece) (l : List Char) (c : Char)
    (r : List Char) : Prop :=
  ∃ before s after x y, ps = before ++ .static s :: after ∧ Says host root s ∧
    s.toList = x ++ c :: y ∧ l = (Piece.page before).toList ++ x ∧
    r = y ++ (Piece.page after).toList

theorem html_eq_page (v : View) : v.html = v.pieces.map Piece.page := by
  unfold html pieces
  rw [Option.map_map]
  exact congrArg (Option.map · v.sent) (funext fun t => (v.roster.page_pieces t).symm)

theorem escaped_reachable (hv : Reachable host root v) (he : host.config.escapeHtml = true) :
    v.AllTrees Tree.Escaped :=
  allTrees_reachable (Host.leaves_escaped he).handsDown hv

/-- With escaping on, a page is made of texts of templates and of what is nothing but text. -/
theorem comes_of_pieces (hv : Reachable host root v) (he : host.config.escapeHtml = true)
    {ps : List Piece} (hps : v.pieces = some ps) : ∀ p ∈ ps, Comes host root p := by
  have hescaped := escaped_reachable hv he
  have hbuilt := built_reachable hv
  obtain rfl := hv.host_eq
  obtain rfl := hv.root_eq
  have hcomponents (h : Handle) (t : Tree) (ht : v.roster.tree? h = some t) :
      t.Fits ∧ (∀ x ∈ t.shape.statics, Comes v.host v.root (.static x)) ∧
        ∀ x ∈ t.scalars, Comes v.host v.root (.scalar x) := by
    obtain ⟨c, hc, htree⟩ := Option.bind_eq_some_iff.mp ht
    obtain ⟨a, hone⟩ := hbuilt.components h c hc t htree
    exact ⟨hone.fits, fun x hx => .inr ⟨c.kind.key, a, hone.shape ▸ hx⟩,
      fun x hx => (hescaped.components h t ht x hx).1⟩
  obtain ⟨t, ht, rfl⟩ := Option.map_eq_some_iff.mp hps
  have hroot := hbuilt.sent t ht
  exact hroot.fits.forall_pieces (forall_piecesOf hcomponents _)
    (fun x hx => .inl (hroot.shape ▸ hx)) fun x hx => (hescaped.sent t ht x hx).1

/-- **Markup in a page is that of templates.** -/
theorem isSaid_of_markup {ps : List Piece} (hps : ∀ p ∈ ps, Comes host root p) {l r : List Char}
    {c : Char} (hpage : (Piece.page ps).toList = l ++ c :: r) (hc : c ∈ Text.markup) :
    IsSaid host root ps l c r := by
  obtain ⟨before, p, after, x, y, rfl, htext, hl, hr⟩ := Piece.exists_of_page hpage
  have hp := hps p (List.mem_append_right _ List.mem_cons_self)
  cases p with
  | static s => exact ⟨before, s, after, x, y, rfl, hp, htext, hl, hr⟩
  | scalar s =>
      have hin : c ∈ s.toList := htext ▸ List.mem_append_right _ List.mem_cons_self
      exact absurd hc (hp.plain c hin)

/-- **Escaping is complete, and loses nothing, throughout a view.** After any run with escaping on,
all scalars in the tree of the root and in those of all components are nothing but text and can be
read back; the page is made of them and of texts of templates, and all markup in it is that of
templates. Whatever text was escaped is read back as it was, so that no two values of different
texts leave the same in a page. -/
theorem escaped_throughout (host : Host) (root : Template) (v : View) :
    (Reachable host root v → host.config.escapeHtml = true →
      (∀ tree, v.sent = some tree → tree.Escaped) ∧
      (∀ h c tree, v.roster.get? h = some c → c.tree = some tree → tree.Escaped) ∧
      v.html = v.pieces.map Piece.page ∧
      ∀ ps, v.pieces = some ps → (∀ p ∈ ps, Comes host root p) ∧
        ∀ l c r, (Piece.page ps).toList = l ++ c :: r → c ∈ Text.markup →
          IsSaid host root ps l c r) ∧
      (∀ s, Text.unescape (Text.escape s) = s) ∧
      ∀ x y : Value, x.rawText ≠ y.rawText → x.safeText true ≠ y.safeText true := by
  refine ⟨fun hv he => ?_, Text.unescape_escape, fun x y hne heq => hne (Text.escape_inj heq)⟩
  have hescaped := escaped_reachable hv he
  refine ⟨hescaped.sent, fun h c tree hc htree => ?_, v.html_eq_page, fun ps hps => ?_⟩
  · exact hescaped.components h tree ((tree?_of_get? hc).trans htree)
  · have hcomes := comes_of_pieces hv he hps
    exact ⟨hcomes, fun l c r => isSaid_of_markup hcomes⟩

/-- A quotation with a title, and with its author in a component. -/
def quotePage : Template :=
  .hole "<q title='" (.value (Reads.ofTexts ["title"]) fun s => s.get "title")
    (.hole "'>" (.component ⟨"author", "author"⟩ (fun _ => .ok "author") fun s => do
        return [("name", ← s.get "name")])
      (.text "</q>"))

def quoteHost : Host :=
  ⟨fun _ => Kind.ofTemplate (.hole "<b>" (.value (Reads.ofTexts ["name"]) fun s => s.get "name")
    (.text "</b>")), {}⟩

/-- The title is kept in the second pass, since only the name was written before it. -/
def quoteRun : List Command :=
  [.write (.set "title" (.str "'a' < b")), .write (.set "name" (.str "X")), .render 1,
    .write (.set "name" (.str "&lt;")), .render 1]

/-- Quotes in the title and an entity for a name are escaped, and the first character of the page
is that of a template. -/
theorem quote_escaped : ∃ (v : View) (tree : Tree) (c : Component) (t : Tree) (ps : List Piece)
    (r : List Char), Reachable quoteHost quotePage v ∧ quoteHost.config.escapeHtml = true ∧
    v.sent = some tree ∧ tree.scalars = ["&#39;a&#39; &lt; b"] ∧ tree.Escaped ∧
    v.roster.get? 0 = some c ∧ c.tree = some t ∧ t.scalars = ["&amp;lt;"] ∧ t.Escaped ∧
    v.html = some "<q title='&#39;a&#39; &lt; b'><b>&amp;lt;</b></q>" ∧ v.pieces = some ps ∧
    (∀ p ∈ ps, Comes quoteHost quotePage p) ∧ (Piece.page ps).toList = '<' :: r ∧
    IsSaid quoteHost quotePage ps [] '<' r := by
  have hgood : ((ofTemplate quoteHost quotePage).run quoteRun).any (fun x =>
      x.2.sent.any (fun tree => tree.scalars = ["&#39;a&#39; &lt; b"]) &&
      (((x.2.roster.get? 0).bind Component.tree).any (fun t => t.scalars = ["&amp;lt;"]) &&
        x.2.html = some "<q title='&#39;a&#39; &lt; b'><b>&amp;lt;</b></q>")) = true := by
    decide +kernel
  obtain ⟨⟨answers, v⟩, hrun, hgood⟩ := (Option.any_eq_true ..).mp hgood
  simp only [Bool.and_eq_true, decide_eq_true_eq, Option.any_eq_true] at hgood
  obtain ⟨⟨tree, hsent, htitle⟩, ⟨t, hbind, hname⟩, hhtml⟩ := hgood
  obtain ⟨c, hc, htree⟩ := Option.bind_eq_some_iff.mp hbind
  have hv : Reachable quoteHost quotePage v := Reachable.start.run hrun
  obtain ⟨hroot, hcomponents, hpage, hpieces⟩ := (escaped_throughout _ _ v).1 hv rfl
  obtain ⟨ps, hps, hjoined⟩ := Option.map_eq_some_iff.mp (hpage.symm.trans hhtml)
  obtain ⟨hcomes, hsaid⟩ := hpieces ps hps
  have hfirst : (Piece.page ps).toList =
      '<' :: "q title='&#39;a&#39; &lt; b'><b>&amp;lt;</b></q>".toList := by
    rw [hjoined]
    rfl
  exact ⟨v, tree, c, t, ps, _, hv, rfl, hsent, htitle, hroot tree hsent, hc, htree, hname,
    hcomponents 0 c t hc htree, hhtml, hps, hcomes, hfirst, hsaid [] '<' _ hfirst (by decide)⟩

end View

end ViewSync
