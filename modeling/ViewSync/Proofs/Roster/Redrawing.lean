import ViewSync.Proofs.Roster.Resting
import ViewSync.Proofs.Roster.Rollback

/-!
# Trees that are drawn anew

Which trees a pass may have changed, and which components may be without one. A tree is as it was
before the pass unless a former tree was noted; the former tree is the one from before the pass; and
a live component without a tree is queued, being rendered, or stillborn.
-/

namespace ViewSync.Roster

variable {r₀ r : Roster} {former : FormerTrees}

/-- A tree that fits its shape, of which something is known besides. -/
def Suits (S : Shape → Prop) (t : Tree) : Prop := t.Fits ∧ S t.shape

theorem Suits.blank {S : Shape → Prop} {t : Tree} (ht : Suits S t) (gone : List Handle) :
    Suits S (t.blank gone) := by
  refine ⟨ht.1.blank gone, ?_⟩
  rw [Tree.shape_blank]
  exact ht.2

/-- How the trees of a roster in the middle of a pass go together with those from before. -/
structure Redrawn (S : Shape → Prop) (r₀ : Roster) (cur : Option Handle) (r : Roster)
    (former : FormerTrees) : Prop where
  /-- Records, ids and handles go together. -/
  arena : r.Arena
  /-- Every tree is of such a shape, and fits. -/
  suits : ∀ h t, r.tree? h = some t → Suits S t
  /-- A live component without a tree is queued, stillborn or being rendered. -/
  waiting : ∀ h c, r.get? h = some c → c.retired = false → c.tree = none →
    h ∈ r.queue ∨ h ∈ r.stillborn ∨ cur = some h
  /-- A component without a former tree has the tree from before the pass. -/
  kept : ∀ h, former.get? h = none → r.tree? h = r₀.tree? h
  /-- A former tree is the one from before the pass, and the component has a new one. -/
  noted : ∀ h t, former.get? h = some t → t = r₀.tree? h ∧ r.tree? h ≠ none
  /-- What is stillborn had no tree before. -/
  stillborn : ∀ h ∈ r.stillborn, r₀.tree? h = none
  /-- The former trees are in order. -/
  sorted : former.Sorted

theorem tree?_put {h : Handle} {c : Component} (hc : r.get? h = some c) (c' : Component)
    (k : Handle) : (r.put h c').tree? k = if k = h then c'.tree else r.tree? k := by
  unfold tree?
  rw [get?_put (lt_of_get? hc)]
  split <;> rfl

theorem tree?_of_get? {h : Handle} {c : Component} (hc : r.get? h = some c) :
    r.tree? h = c.tree := by
  unfold tree?
  rw [hc]
  rfl

theorem tree?_of_none {h : Handle} (hc : r.get? h = none) : r.tree? h = none := by
  unfold tree?
  rw [hc]
  rfl

namespace Redrawn

variable {S : Shape → Prop} {cur : Option Handle}

/-- Records that change in their assigns and owner, and a queue that grows. -/
theorem congr {r' : Roster} (hd : Redrawn S r₀ cur r former) (harena : r'.Arena)
    (htree : ∀ k, r'.tree? k = r.tree? k) (hstillborn : r'.stillborn = r.stillborn)
    (hwaiting : ∀ k c', r'.get? k = some c' → c'.retired = false → c'.tree = none →
      k ∈ r'.queue ∨ ∃ c, r.get? k = some c ∧ c.retired = false ∧ c.tree = none)
    (hqueue : ∀ k ∈ r.queue, k ∈ r'.queue) : Redrawn S r₀ cur r' former where
  arena := harena
  suits h t ht := hd.suits h t ((htree h).symm.trans ht)
  waiting h c' hc hlive hnone := by
    rcases hwaiting h c' hc hlive hnone with hq | ⟨c, hc, hlive, hnone⟩
    · exact .inl hq
    · rw [hstillborn]
      exact (hd.waiting h c hc hlive hnone).imp_left (hqueue h)
  kept h hf := (htree h).trans (hd.kept h hf)
  noted h t hf := by
    rw [htree]
    exact hd.noted h t hf
  stillborn h hh := hd.stillborn h (hstillborn ▸ hh)
  sorted := hd.sorted

theorem edit {kinds : Kinds} {Good : Value → Prop} {r' : Roster} (hd : Redrawn S r₀ cur r former)
    (he : Edit kinds Good r r') : Redrawn S r₀ cur r' former := by
  have harena := hd.arena.edit he
  cases he with
  | marks seen drawn =>
      exact hd.congr harena (fun _ => rfl) rfl (fun k c hc hl hn => .inr ⟨c, hc, hl, hn⟩)
        fun _ hk => hk
  | keep hc =>
      exact hd.congr harena (fun _ => rfl) rfl (fun k c hc hl hn => .inr ⟨c, hc, hl, hn⟩)
        fun _ hk => hk
  | @rewrite h c props owner seen queue hc _ hmono =>
      have hget := get?_put (r := r.keepState c) (lt_of_get? (r := r) hc)
        { c with
          assigns := ((kinds c.kind.key).update props c.assigns).1
          owner := owner <|> c.owner }
      refine hd.congr harena (fun k => ?_) rfl (fun k c' hc' hl hn => .inr ?_) hmono
      · have htree := tree?_put (r := r.keepState c) hc { c with
          assigns := ((kinds c.kind.key).update props c.assigns).1, owner := owner <|> c.owner } k
        refine htree.trans ?_
        split
        · next hk =>
            subst hk
            exact (tree?_of_get? hc).symm
        · rfl
      · have hc' := (hget k).symm.trans hc'
        split at hc'
        · next hk =>
            obtain rfl := Option.some.inj hc'
            exact ⟨c, hk ▸ hc, hl, hn⟩
        · exact ⟨c', hc', hl, hn⟩
  | @create id kind props a b owner seen queue hid _ _ _ hmono hin =>
      have hget := get?_create hd.arena.spare_empty id kind b owner
      refine hd.congr harena (fun k => ?_) ?_ (fun k c' hc' hl hn => ?_) ?_
      · change (r.create id kind b owner).tree? k = _
        unfold tree?
        rw [hget]
        split
        · next hk =>
            rw [hk, get?_takeHandle hd.arena.spare_empty]
            rfl
        · rfl
      · change (r.create id kind b owner).stillborn = r.stillborn
        rw [create_rest]
      · have hc' := (hget k).symm.trans hc'
        split at hc'
        · next hk => exact .inl (hk ▸ hin)
        · exact .inr ⟨c', hc', hl, hn⟩
      · exact hmono

/-- What is known of a tree that a component was rendered to. -/
def Drawn (host : Host) (c : Component) (t : Tree) : Prop :=
  t.shape = ((host.kinds c.kind.key).render c.assigns).shape ∧
    ((∀ b, c.tree = some b → b.Fits) → t.Fits)

/-- A component was rendered: its former tree is noted, if none is. -/
theorem rendered {h : Handle} {c : Component} {t : Tree} (hd : Redrawn S r₀ (some h) r former)
    (hc : r.get? h = some c) (ht : Suits S t) :
    Redrawn S r₀ none (r.put h { c with tree := some t, assigns := c.assigns.settled })
      (former.insertNew h c.tree) where
  arena := hd.arena.put hc rfl rfl rfl
  suits k u hu := by
    rw [tree?_put hc] at hu
    split at hu
    · obtain rfl := Option.some.inj hu
      exact ht
    · exact hd.suits k u hu
  waiting k d hk hlive hnone := by
    rw [get?_put (lt_of_get? hc)] at hk
    split at hk
    · obtain rfl := Option.some.inj hk
      cases hnone
    · next hne =>
        rcases hd.waiting k d hk hlive hnone with hq | hs | heq
        · exact .inl hq
        · exact .inr (.inl hs)
        · exact absurd (Option.some.inj heq).symm hne
  kept k hf := by
    rw [Keyed.get?_insertNew] at hf
    split at hf
    · cases hf
    · next hne =>
        rw [tree?_put hc, if_neg hne]
        exact hd.kept k hf
  noted k u hf := by
    rw [Keyed.get?_insertNew] at hf
    rw [tree?_put hc]
    split at hf
    · next hk =>
        subst hk
        rw [if_pos rfl]
        refine ⟨?_, Option.some_ne_none _⟩
        have hu := Option.some.inj hf
        -- the first tree that is noted is the one from before the pass, and it stays
        cases hold : former.get? k with
        | some w =>
            rw [hold, Option.getD_some] at hu
            rw [← hu]
            exact (hd.noted k w hold).1
        | none =>
            rw [hold, Option.getD_none] at hu
            rw [← hu, ← hd.kept k hold]
            exact (tree?_of_get? hc).symm
    · next hne =>
        rw [if_neg hne]
        exact hd.noted k u hf
  stillborn := hd.stillborn
  sorted := Keyed.sorted_insertNew hd.sorted _ _

/-- A component failed: it keeps its tree, or is stillborn. -/
theorem failed {h : Handle} {c : Component} (hd : Redrawn S r₀ (some h) r former)
    (hc : r.get? h = some c) :
    Redrawn S r₀ none (if c.tree.isNone then { r with stillborn := r.stillborn.insert h } else r)
      former := by
  cases htree : c.tree with
  | some t =>
      -- it had a tree, so it is not the one that waits
      refine ⟨hd.arena, hd.suits, ?_, hd.kept, hd.noted, hd.stillborn, hd.sorted⟩
      intro k d hk hlive hnone
      rcases hd.waiting k d hk hlive hnone with hq | hs | heq
      · exact .inl hq
      · exact .inr (.inl hs)
      · obtain rfl := Option.some.inj heq
        have hcd := hc.symm.trans hk
        obtain rfl := Option.some.inj hcd
        rw [htree] at hnone
        cases hnone
  | none =>
      refine ⟨hd.arena.congr rfl rfl rfl rfl rfl, hd.suits, ?_, hd.kept, hd.noted, ?_, hd.sorted⟩
      · intro k d hk hlive hnone
        change k ∈ r.queue ∨ k ∈ r.stillborn.insert h ∨ _
        rw [KeySet.mem_insert]
        rcases hd.waiting k d hk hlive hnone with hq | hs | heq
        · exact .inl hq
        · exact .inr (.inl (.inr hs))
        · exact .inr (.inl (.inl (Option.some.inj heq).symm))
      · intro k hk
        rcases KeySet.mem_insert.mp hk with rfl | hk
        · -- a component without a tree had none before the pass, or one would have been noted
          have hnow : r.tree? k = none := (tree?_of_get? hc).trans htree
          cases hf : former.get? k with
          | none => rw [← hd.kept k hf, hnow]
          | some u => exact absurd hnow (hd.noted k u hf).2
        · exact hd.stillborn k hk

/-- **Draining the queue redraws trees.** -/
theorem steady (r₀ : Roster) {host : Host}
    (hS : ∀ key a, S ((host.kinds key).render a).shape) :
    Steady host (fun _ => True) (Drawn host) (Redrawn S r₀) where
  good_str _ := trivial
  arena hd := hd.arena
  edit hd he := hd.edit he
  skip {r former h queue} hd hq hret := by
    refine ⟨hd.arena.congr rfl rfl rfl rfl rfl, hd.suits, ?_, hd.kept, hd.noted, hd.stillborn,
      hd.sorted⟩
    intro k c hc hlive hnone
    rcases hd.waiting k c hc hlive hnone with hin | hs | heq
    · rw [hq] at hin
      rcases List.mem_cons.mp hin with rfl | hin
      · -- only what is retired is skipped
        rw [hret c hc] at hlive
        cases hlive
      · exact .inl hin
    · exact .inr (.inl hs)
    · cases heq
  start {r former h queue c} hd hq _ _ := by
    refine ⟨hd.arena.congr rfl rfl rfl rfl rfl, hd.suits, ?_, hd.kept, hd.noted, hd.stillborn,
      hd.sorted⟩
    intro k d hk hlive hnone
    rcases hd.waiting k d hk hlive hnone with hin | hs | heq
    · rw [hq] at hin
      rcases List.mem_cons.mp hin with rfl | hin
      · -- what leaves the queue is being rendered
        exact .inr (.inr rfl)
      · exact .inl hin
    · exact .inr (.inl hs)
    · cases heq
  yields _ _ hP :=
    Pass.yields_template hP (Scope.all_true _) (Template.makes_true _) _
  rendered {r former h c t} hd hc _ ht := by
    refine hd.rendered hc ⟨ht.2 ?_, ?_⟩
    · intro b hb
      exact (hd.suits h b ((tree?_of_get? hc).trans hb)).1
    · rw [ht.1]
      exact hS _ _
  failed hd hc _ := hd.failed hc

/-- Between passes, once the client was told of what was retired. -/
theorem told {r r' : Roster} (hsuits : ∀ h t, r.tree? h = some t → Suits S t)
    (hwait : ∀ h c, r.get? h = some c → c.retired = false → c.tree = none → h ∈ r.queue)
    (hr : Retires r r') (hrest : r'.Resting) :
    Redrawn S r'.tell.2.reclaim none r'.tell.2.reclaim [] where
  arena := hrest.reclaim_tell.arena
  suits h t ht := by
    rw [tree?_reclaim_tell hr] at ht
    split at ht
    · cases ht
    · exact hsuits h t ht
  waiting h c hc _ hnone := by
    obtain ⟨hold, hlive, hnot⟩ := get?_reclaim_tell_of_retires hr hrest.arena hc
    refine .inl ?_
    rw [queue_reclaim_tell, List.mem_filter, hr.queue]
    exact ⟨hwait h c hold hlive hnone, by simpa using hnot⟩
  kept _ _ := rfl
  noted _ _ hf := by cases hf
  stillborn h hh := by
    rw [hrest.reclaim_tell.stillborn] at hh
    cases hh
  sorted := List.Pairwise.nil

end Redrawn

end ViewSync.Roster
