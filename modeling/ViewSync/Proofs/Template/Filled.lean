import ViewSync.Proofs.Pass.Still

/-!
# What a template comes to

A tree is *filled* from a template at a scope when it is what the callbacks yield there, with a
component wherever the template refers to one. Which component that is, is left to a relation
between references and handles: the same tree may be looked at with the references that were made
when it was rendered, or with what has become of the components since.
-/

namespace ViewSync

/-- A reference to a component, as a hole of a template makes it. -/
structure Reference where
  /-- The kind that the component is to be. -/
  kind : KindRef
  /-- The id that it goes by. -/
  id : String
  /-- The props that it is handed. -/
  props : Fields

mutual

/-- The component holes of a template: what kind each refers to, and what it hands over. -/
def Template.references : Template → List (KindRef × Callback Fields)
  | .text _ => []
  | .hole _ h rest => h.references ++ rest.references

/-- The component holes in a hole. -/
def Hole.references : Hole → List (KindRef × Callback Fields)
  | .value .. => []
  | .choice _ _ branches => branches.references
  | .loop _ _ _ body => body.references
  | .stream _ _ body => body.references
  | .component kind _ props => [(kind, props)]

/-- The component holes in some branches. -/
def Branches.references : Branches → List (KindRef × Callback Fields)
  | .none => []
  | .more t rest => t.references ++ rest.references

end

mutual

/-- Fillings are what a template without streams yields at a scope, with handles that go together
with the references. -/
def Template.FilledAt (escaped : Bool) (link : Reference → Handle → Prop) (s : Scope) :
    Template → List Filling → Prop
  | .text _, fs => fs = []
  | .hole .., [] => False
  | .hole _ h rest, f :: fs => h.FilledAt escaped link s f ∧ rest.FilledAt escaped link s fs

/-- The same of one hole. -/
def Hole.FilledAt (escaped : Bool) (link : Reference → Handle → Prop) (s : Scope) :
    Hole → Filling → Prop
  | .value _ eval, .text text => ∃ v, eval s = .ok v ∧ text = v.safeText escaped
  | .choice _ choose _, .choice none none => choose s = .ok none
  | .choice _ choose branches, .choice (some i) (some t) =>
    choose s = .ok (some i) ∧ branches.FilledAt escaped link s i t
  | .loop _ items binding body, .loop shape entries =>
    shape = body.shape ∧ ∃ values, items s = .ok values ∧ List.Forall₂
      (fun v t => t.shape = body.shape ∧
        body.FilledAt escaped link (s.bind binding v) t.fillings) values entries
  | .component kind id props, .component h _ =>
    ∃ i fields, id s = .ok i ∧ props s = .ok fields ∧ link ⟨kind, i, fields⟩ h
  | _, _ => False

/-- The same of the branch at a position. -/
def Branches.FilledAt (escaped : Bool) (link : Reference → Handle → Prop) (s : Scope) :
    Branches → Nat → Tree → Prop
  | .none, _, _ => False
  | .more t _, 0, tree => tree.shape = t.shape ∧ t.FilledAt escaped link s tree.fillings
  | .more _ rest, n + 1, tree => rest.FilledAt escaped link s n tree

end

/-- A tree is filled from a template at assigns, whatever was written there. -/
def Template.Filled (escaped : Bool) (link : Reference → Handle → Prop) (a : Assigns)
    (t : Template) (tree : Tree) : Prop :=
  tree.shape = t.shape ∧ t.FilledAt escaped link (Scope.ofAssigns a.settled) tree.fillings

variable {escaped : Bool} {link link' : Reference → Handle → Prop} {s : Scope}

/-! ## Other relations -/

mutual

/-- Only the handles that are there matter. -/
theorem Template.filledAt_imp : ∀ (t : Template) (s : Scope) (fs : List Filling),
    (∀ ref h, h ∈ Tree.handlesOfEach fs → link ref h → link' ref h) →
    t.FilledAt escaped link s fs → t.FilledAt escaped link' s fs
  | .text _, _, _, _, hf => hf
  | .hole _ h rest, s, f :: fs, himp, hf => by
      have himp' (ref : Reference) (k : Handle)
          (hk : k ∈ Tree.handlesOf f ∨ k ∈ Tree.handlesOfEach fs) (hl : link ref k) : link' ref k :=
        himp ref k (List.mem_append.mpr hk) hl
      exact ⟨h.filledAt_imp s f (fun ref k hk => himp' ref k (.inl hk)) hf.1,
        rest.filledAt_imp s fs (fun ref k hk => himp' ref k (.inr hk)) hf.2⟩

theorem Hole.filledAt_imp : ∀ (h : Hole) (s : Scope) (f : Filling),
    (∀ ref k, k ∈ Tree.handlesOf f → link ref k → link' ref k) →
    h.FilledAt escaped link s f → h.FilledAt escaped link' s f
  | .value .., _, .text _, _, hf => hf
  | .choice .., _, .choice none none, _, hf => hf
  | .choice _ _ branches, s, .choice (some i) (some t), himp, hf =>
      ⟨hf.1, branches.filledAt_imp s i t himp hf.2⟩
  | .loop _ _ binding body, s, .loop _ entries, himp, hf => by
      obtain ⟨hshape, values, hvalues, hentries⟩ := hf
      refine ⟨hshape, values, hvalues, ?_⟩
      rw [List.forall₂_iff_zip] at hentries ⊢
      refine ⟨hentries.1, fun {v t} hin => ?_⟩
      obtain ⟨hone, hfilled⟩ := hentries.2 hin
      refine ⟨hone, body.filledAt_imp (s.bind binding v) t.fillings (fun ref k hk => ?_) hfilled⟩
      obtain ⟨_, fs⟩ := t
      exact himp ref k (Tree.mem_handlesOfTrees.mpr ⟨_, (List.of_mem_zip hin).2, hk⟩)
  | .component .., _, .component k _, himp, hf => by
      obtain ⟨i, fields, hid, hprops, hlink⟩ := hf
      exact ⟨i, fields, hid, hprops, himp _ k List.mem_cons_self hlink⟩

theorem Branches.filledAt_imp : ∀ (bs : Branches) (s : Scope) (n : Nat) (tree : Tree),
    (∀ ref k, k ∈ tree.handles → link ref k → link' ref k) →
    bs.FilledAt escaped link s n tree → bs.FilledAt escaped link' s n tree
  | .more t _, s, 0, .mk _ fs, himp, hf => ⟨hf.1, t.filledAt_imp s fs himp hf.2⟩
  | .more _ rest, s, n + 1, tree, himp, hf => rest.filledAt_imp s n tree himp hf

end

theorem Template.Filled.imp {a : Assigns} {t : Template} {tree : Tree}
    (hf : t.Filled escaped link a tree)
    (himp : ∀ ref h, h ∈ tree.handles → link ref h → link' ref h) :
    t.Filled escaped link' a tree := by
  obtain ⟨shape, fs⟩ := tree
  exact ⟨hf.1, t.filledAt_imp _ fs himp hf.2⟩

/-- Whatever some component holes refer to is good, unless a negative zero is in the scope. -/
def Asks (Good : Reference → Prop) (holes : List (KindRef × Callback Fields)) : Prop :=
  ∀ e ∈ holes, ∀ s i fields, s.All Value.Plain → e.2 s = .ok fields →
    (∀ f ∈ fields, f.2.Plain) → Good ⟨e.1, i, fields⟩

mutual

/-- What a template is filled with comes from references of its own. -/
theorem Template.filledAt_asks {Good : Reference → Prop} :
    ∀ (t : Template) (s : Scope) (fs : List Filling), t.Makes Value.Plain → s.All Value.Plain →
    Asks Good t.references → t.FilledAt escaped link s fs →
    t.FilledAt escaped (fun ref h => Good ref ∧ link ref h) s fs
  | .text _, _, _, _, _, _, hf => hf
  | .hole _ h rest, s, f :: fs, hm, hs, hgood, hf =>
      ⟨h.filledAt_asks s f hm.1 hs (fun e he => hgood e (List.mem_append_left _ he)) hf.1,
        rest.filledAt_asks s fs hm.2 hs (fun e he => hgood e (List.mem_append_right _ he)) hf.2⟩

theorem Hole.filledAt_asks {Good : Reference → Prop} :
    ∀ (h : Hole) (s : Scope) (f : Filling), h.Makes Value.Plain → s.All Value.Plain →
    Asks Good h.references → h.FilledAt escaped link s f →
    h.FilledAt escaped (fun ref h => Good ref ∧ link ref h) s f
  | .value .., _, .text _, _, _, _, hf => hf
  | .choice .., _, .choice none none, _, _, _, hf => hf
  | .choice _ _ branches, s, .choice (some i) (some t), hm, hs, hgood, hf =>
      ⟨hf.1, branches.filledAt_asks s i t hm hs hgood hf.2⟩
  | .loop _ _ binding body, s, .loop _ entries, hm, hs, hgood, hf => by
      obtain ⟨hshape, values, hvalues, hentries⟩ := hf
      refine ⟨hshape, values, hvalues, ?_⟩
      rw [List.forall₂_iff_zip] at hentries ⊢
      refine ⟨hentries.1, fun {v t} hin => ?_⟩
      obtain ⟨hone, hfilled⟩ := hentries.2 hin
      have hbound := hs.bind binding (hm.1 s values hs hvalues v (List.of_mem_zip hin).1)
      exact ⟨hone, body.filledAt_asks _ t.fillings hm.2 hbound hgood hfilled⟩
  | .component .., s, .component k _, hm, hs, hgood, hf => by
      obtain ⟨i, fields, hid, hprops, hlink⟩ := hf
      have hone := hgood _ List.mem_cons_self s i fields hs hprops (hm s fields hs hprops)
      exact ⟨i, fields, hid, hprops, hone, hlink⟩

theorem Branches.filledAt_asks {Good : Reference → Prop} :
    ∀ (bs : Branches) (s : Scope) (n : Nat) (tree : Tree), bs.Makes Value.Plain →
    s.All Value.Plain → Asks Good bs.references → bs.FilledAt escaped link s n tree →
    bs.FilledAt escaped (fun ref h => Good ref ∧ link ref h) s n tree
  | .more t _, s, 0, .mk _ fs, hm, hs, hgood, hf =>
      ⟨hf.1, t.filledAt_asks s fs hm.1 hs (fun e he => hgood e (List.mem_append_left _ he)) hf.2⟩
  | .more _ rest, s, n + 1, tree, hm, hs, hgood, hf =>
      rest.filledAt_asks s n tree hm.2 hs (fun e he => hgood e (List.mem_append_right _ he)) hf

end

theorem exists_of_forall₂ {α β : Type} {R : α → β → Prop} {as : List α} {bs : List β}
    (h : List.Forall₂ R as bs) {b : β} (hb : b ∈ bs) : ∃ a, R a b := by
  induction h with
  | nil => cases hb
  | cons hab _ ih =>
      rcases List.mem_cons.mp hb with rfl | hb
      · exact ⟨_, hab⟩
      · exact ih hb

/-! ## Scopes and pages -/

mutual

/-- What was written does not matter. -/
theorem Template.filledAt_settled : ∀ (t : Template), t.ValuesOnly → ∀ (s : Scope)
    (fs : List Filling), t.FilledAt escaped link s.settled fs ↔ t.FilledAt escaped link s fs
  | .text _, _, _, _ => .rfl
  | .hole .., _, _, [] => .rfl
  | .hole _ h rest, hv, s, f :: fs =>
      and_congr (h.filledAt_settled hv.1 s f) (rest.filledAt_settled hv.2 s fs)

theorem Hole.filledAt_settled : ∀ (h : Hole), h.ValuesOnly → ∀ (s : Scope) (f : Filling),
    h.FilledAt escaped link s.settled f ↔ h.FilledAt escaped link s f
  | .value _ eval, hv, s, f => by
      cases f with
      | text => simp only [Hole.FilledAt, hv s]
      | _ => exact .rfl
  | .choice _ choose branches, hv, s, f => by
      cases f with
      | choice b tree =>
          cases b with
          | none =>
              cases tree with
              | none => simp only [Hole.FilledAt, hv.1 s]
              | some t => exact .rfl
          | some i =>
              cases tree with
              | none => exact .rfl
              | some t =>
                  simp only [Hole.FilledAt, hv.1 s]
                  exact and_congr_right fun _ => branches.filledAt_settled hv.2 s i t
      | _ => exact .rfl
  | .loop _ items binding body, hv, s, f => by
      cases f with
      | loop shape entries =>
          simp only [Hole.FilledAt, hv.1 s]
          have hbody (v : Value) (t : Tree) :
              (t.shape = body.shape ∧
                body.FilledAt escaped link (s.settled.bind binding v) t.fillings) =
              (t.shape = body.shape ∧
                body.FilledAt escaped link (s.bind binding v) t.fillings) :=
            propext (and_congr_right fun _ =>
              body.filledAt_settled hv.2 (s.bind binding v) t.fillings)
          simp only [hbody]
      | _ => exact .rfl
  | .stream .., _, _, _ => .rfl
  | .component kind id props, hv, s, f => by
      cases f with
      | component k changed => simp only [Hole.FilledAt, hv.1 s, hv.2 s]
      | _ => exact .rfl

theorem Branches.filledAt_settled : ∀ (bs : Branches), bs.ValuesOnly → ∀ (s : Scope) (n : Nat)
    (tree : Tree), bs.FilledAt escaped link s.settled n tree ↔ bs.FilledAt escaped link s n tree
  | .none, _, _, _, _ => .rfl
  | .more t _, hv, s, 0, tree => and_congr_right fun _ => t.filledAt_settled hv.1 s tree.fillings
  | .more _ rest, hv, s, n + 1, tree => rest.filledAt_settled hv.2 s n tree

end

theorem Template.filled_iff {a : Assigns} {t : Template} {tree : Tree} (hv : t.ValuesOnly) :
    t.Filled escaped link a tree ↔
      tree.shape = t.shape ∧ t.FilledAt escaped link (Scope.ofAssigns a) tree.fillings :=
  and_congr_right fun _ => t.filledAt_settled hv (Scope.ofAssigns a) tree.fillings

section Pages

variable {f g : Handle → String}

mutual

/-- Two trees that are filled at one scope make the same page, if the components do that they have
for the same references. -/
theorem Template.htmlOfEach_eq (hfg : ∀ ref h k, link ref h → link' ref k → f h = g k) :
    ∀ (t : Template) (s : Scope) (fs gs : List Filling),
    t.FilledAt escaped link s fs → t.FilledAt escaped link' s gs →
    Tree.htmlOfEach f fs = Tree.htmlOfEach g gs
  | .text _, _, _, _, hf, hg => by
      obtain rfl := hf
      obtain rfl := hg
      rfl
  | .hole _ h rest, s, x :: fs, y :: gs, hf, hg => by
      rw [Tree.htmlOfEach, Tree.htmlOfEach, h.htmlOf_eq hfg s x y hf.1 hg.1,
        rest.htmlOfEach_eq hfg s fs gs hf.2 hg.2]

theorem Hole.htmlOf_eq (hfg : ∀ ref h k, link ref h → link' ref k → f h = g k) :
    ∀ (h : Hole) (s : Scope) (x y : Filling),
    h.FilledAt escaped link s x → h.FilledAt escaped link' s y →
    Tree.htmlOf f x = Tree.htmlOf g y
  | .value .., _, .text _, .text _, hf, hg => by
      obtain ⟨v, hv, rfl⟩ := hf
      obtain ⟨w, hw, rfl⟩ := hg
      obtain rfl := Except.ok.inj (hv.symm.trans hw)
      rfl
  | .choice .., _, .choice none none, .choice none none, _, _ => rfl
  | .choice .., _, .choice none none, .choice (some i) (some t), hf, hg => by
      cases hf.symm.trans hg.1
  | .choice .., _, .choice (some i) (some t), .choice none none, hf, hg => by
      cases hf.1.symm.trans hg
  | .choice _ _ branches, s, .choice (some i) (some t), .choice (some j) (some u), hf, hg => by
      obtain rfl := Option.some.inj (Except.ok.inj (hf.1.symm.trans hg.1))
      exact branches.html_eq hfg s i t u hf.2 hg.2
  | .loop _ _ binding body, s, .loop _ ts, .loop _ us, hf, hg => by
      obtain ⟨-, values, hvalues, ht⟩ := hf
      obtain ⟨-, values', hvalues', hu⟩ := hg
      obtain rfl := Except.ok.inj (hvalues.symm.trans hvalues')
      change Tree.htmlOfTrees f ts = Tree.htmlOfTrees g us
      clear hvalues hvalues'
      induction ht generalizing us with
      | nil =>
          cases hu
          rfl
      | @cons v t values ts hone _ ih =>
          obtain _ | ⟨hone', hrest'⟩ := hu
          rename_i u us
          obtain ⟨shape, fs⟩ := t
          obtain ⟨shape', gs⟩ := u
          obtain ⟨rfl, hfs⟩ : shape = body.shape ∧ _ := hone
          obtain ⟨rfl, hgs⟩ : shape' = body.shape ∧ _ := hone'
          rw [Tree.htmlOfTrees, Tree.htmlOfTrees, ih _ hrest', Tree.html, Tree.html,
            body.htmlOfEach_eq hfg (s.bind binding v) fs gs hfs hgs]
  | .component .., _, .component h _, .component k _, hf, hg => by
      obtain ⟨i, fields, hid, hprops, hlink⟩ := hf
      obtain ⟨i', fields', hid', hprops', hlink'⟩ := hg
      obtain rfl := Except.ok.inj (hid.symm.trans hid')
      obtain rfl := Except.ok.inj (hprops.symm.trans hprops')
      exact hfg _ h k hlink hlink'

theorem Branches.html_eq (hfg : ∀ ref h k, link ref h → link' ref k → f h = g k) :
    ∀ (bs : Branches) (s : Scope) (n : Nat) (t u : Tree),
    bs.FilledAt escaped link s n t → bs.FilledAt escaped link' s n u → t.html f = u.html g
  | .more t _, s, 0, .mk shape fs, .mk shape' gs, hf, hg => by
      obtain ⟨rfl, hf⟩ : shape = t.shape ∧ _ := hf
      obtain ⟨rfl, hg⟩ : shape' = t.shape ∧ _ := hg
      rw [Tree.html, Tree.html, t.htmlOfEach_eq hfg s fs gs hf hg]
  | .more _ rest, s, n + 1, t, u, hf, hg => rest.html_eq hfg s n t u hf hg

end

theorem Template.Filled.html_eq (hfg : ∀ ref h k, link ref h → link' ref k → f h = g k)
    {a b : Assigns} {t : Template} {tree tree' : Tree}
    (hab : a.settled = b.settled) (hf : t.Filled escaped link a tree)
    (hg : t.Filled escaped link' b tree') : tree.html f = tree'.html g := by
  obtain ⟨shape, fs⟩ := tree
  obtain ⟨shape', gs⟩ := tree'
  obtain ⟨rfl, hf⟩ : shape = t.shape ∧ _ := hf
  obtain ⟨rfl, hg⟩ : shape' = t.shape ∧ _ := hg
  rw [hab] at hf
  rw [Tree.html, Tree.html, t.htmlOfEach_eq hfg _ fs gs hf hg]

end Pages

end ViewSync
