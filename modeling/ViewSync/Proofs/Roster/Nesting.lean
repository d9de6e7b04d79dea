import Mathlib.Data.Finset.Card
import Mathlib.Order.Interval.Finset.Nat
import ViewSync.Proofs.Roster.Renewal

/-!
# How deep components are nested

Where no kind comes to contain itself, there is a bound on how deep components are nested below one
of them: the number of those that its kind leads to. So the pages of two rosters may be compared
from the top down, and are the same where components that go together are made of the same assigns.
-/

namespace ViewSync.Roster

variable {l : Library} {r : Roster} {h k : Handle}

/-! ## Depth -/

/-- Kinds lead to each other as their components do. -/
theorem exists_of_above (ha : Relation.TransGen (Above l r) k h) : ∃ c d, r.get? k = some c ∧
    r.get? h = some d ∧ Relation.TransGen l.Uses c.kind.name d.kind.name := by
  induction ha with
  | single ha =>
      obtain ⟨c, d, hc, hd, hu⟩ := ha
      exact ⟨c, d, hc, hd, .single hu⟩
  | tail _ ha ih =>
      obtain ⟨c, b, hc, hb, hcb⟩ := ih
      obtain ⟨b', d, hb', hd, hu⟩ := ha
      obtain rfl := Option.some.inj (hb.symm.trans hb')
      exact ⟨c, d, hc, hd, hcb.tail hu⟩

open Classical in
/-- How many components there are that one may come to contain. -/
noncomputable def depth (l : Library) (r : Roster) (h : Handle) : Nat :=
  ((Finset.range r.slots.length).filter (Relation.TransGen (Above l r) h)).card

theorem depth_le (l : Library) (r : Roster) (h : Handle) : depth l r h ≤ r.slots.length := by
  classical
  unfold depth
  refine Nat.le_trans (Finset.card_filter_le _ _) ?_
  rw [Finset.card_range]

/-- **What is inside of a component is less deep.** -/
theorem depth_lt (hacyclic : ∀ kind, ¬Relation.TransGen l.Uses kind kind)
    (ha : Above l r k h) : depth l r h < depth l r k := by
  classical
  have ⟨_, _, _, hd, _⟩ := ha
  unfold depth
  refine Finset.card_lt_card ((Finset.ssubset_iff_of_subset fun x hx => ?_).mpr ⟨h, ?_, ?_⟩)
  · rw [Finset.mem_filter] at hx ⊢
    exact ⟨hx.1, .head ha hx.2⟩
  · rw [Finset.mem_filter, Finset.mem_range]
    exact ⟨lt_of_get? hd, .single ha⟩
  · intro hin
    obtain ⟨c, d, hc, hd, hu⟩ := exists_of_above (Finset.mem_filter.mp hin).2
    obtain rfl := Option.some.inj (hc.symm.trans hd)
    exact hacyclic _ hu

/-! ## Pages -/

variable {w f : Roster} {host : Host} {root : Template}

/-- Components of one kind that hold the same assigns. -/
def Twins (w f : Roster) (h k : Handle) : Prop :=
  ∃ c d, w.get? h = some c ∧ f.get? k = some d ∧ c.kind.name = d.kind.name ∧
    c.assigns.settled = d.assigns.settled

/-- Every tree is what its template comes to, with components of the ids that are referred to. -/
def Pictured (l : Library) (escaped : Bool) (r : Roster) : Prop :=
  ∀ h c, r.get? h = some c → ∃ tree, c.tree = some tree ∧
    (l.template c.kind.name).Filled escaped (fun ref k => r.handle? ref.id = some k) c.assigns tree

/-- The references in the tree of a component are those of its template. -/
theorem Coherent.asked (hl : l.Regular host root) (hw : Coherent l host w) {c : Component}
    (hc : w.get? h = some c) : ∃ tree, c.tree = some tree ∧
      (l.template c.kind.name).Filled host.config.escapeHtml
        (fun ref k => l.Suits host.kinds (l.template c.kind.name) ref ∧ Meets w ref k)
        c.assigns tree := by
  obtain ⟨tree, htree, hshape, hfilled⟩ := hw.trees h c hc
  have hplain : (Scope.ofAssigns c.assigns.settled).All Value.Plain :=
    ⟨List.forall_mem_nil _, (hw.propped h c hc).plain⟩
  refine ⟨tree, htree, hshape, ?_⟩
  exact Template.filledAt_asks _ _ _ (hl.template (hw.kinds h c hc)).makes hplain
    (hl.serves c.kind.name).suits hfilled

/-- **Components that go together look the same**, if all that have one id do go together. -/
theorem Coherent.htmlOf_eq (hl : l.Regular host root) (hw : Coherent l host w)
    (hf : Pictured l host.config.escapeHtml f)
    (htwins : ∀ id h k, w.handle? id = some h → f.handle? id = some k → Twins w f h k) (n m : Nat)
    (ht : Twins w f h k) (hn : depth l w h < n) (hm : depth l f k < m) :
    w.htmlOf n h = f.htmlOf m k := by
  induction n generalizing m h k with
  | zero => exact absurd hn (Nat.not_lt_zero _)
  | succ n ih =>
      cases m with
      | zero => exact absurd hm (Nat.not_lt_zero _)
      | succ m =>
          obtain ⟨c, d, hc, hd, hkind, hsame⟩ := ht
          obtain ⟨tree, htree, hfilled⟩ := hw.asked hl hc
          obtain ⟨tree', htree', hfilled'⟩ := hf k d hd
          rw [← hkind] at hfilled'
          rw [htmlOf, htmlOf, (tree?_of_get? hc).trans htree, (tree?_of_get? hd).trans htree']
          refine Template.Filled.html_eq (fun ref x y hx hy => ?_) hsame hfilled hfilled'
          obtain ⟨hsuits, ⟨hid, b, hb, hname⟩, -⟩ := hx
          have hxy := htwins ref.id x y hid hy
          have ⟨b', e, hb', he, hkind', _⟩ := hxy
          obtain rfl := Option.some.inj (hb.symm.trans hb')
          have huses : l.Uses c.kind.name b.kind.name := hname ▸ hsuits.uses
          refine ih m hxy (Nat.lt_of_lt_of_le ?_ (Nat.le_of_lt_succ hn))
            (Nat.lt_of_lt_of_le ?_ (Nat.le_of_lt_succ hm))
          · exact depth_lt hl.acyclic ⟨c, b, hc, hb, huses⟩
          · exact depth_lt hl.acyclic ⟨d, e, hd, he, hkind ▸ hkind' ▸ huses⟩

/-- So do the pages. -/
theorem Coherent.html_eq (hl : l.Regular host root) (hw : Coherent l host w)
    (hf : Pictured l host.config.escapeHtml f)
    (htwins : ∀ id h k, w.handle? id = some h → f.handle? id = some k → Twins w f h k)
    {a b : Assigns} (hab : a.settled = b.settled) {tree tree' : Tree}
    (htree : root.Filled host.config.escapeHtml (Meets w) a tree)
    (htree' : root.Filled host.config.escapeHtml (fun ref k => f.handle? ref.id = some k) b tree') :
    w.html tree = f.html tree' :=
  Template.Filled.html_eq (fun ref h k hh hk => hw.htmlOf_eq hl hf htwins _ _
    (htwins ref.id h k hh.1.1 hk) (Nat.lt_succ_of_le (depth_le l w h))
    (Nat.lt_succ_of_le (depth_le l f k))) hab htree htree'

end ViewSync.Roster
