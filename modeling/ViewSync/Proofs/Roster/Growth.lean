import ViewSync.Proofs.Roster.Draining

/-!
# What rendering leaves of a roster

Rendering a template may change the assigns and the owner of a record, and add records that have no
tree yet. All else that there was before stays: the records with their ids and trees, and what was
retired.
-/

namespace ViewSync.Roster

/-- Records may have changed in their assigns and owners, and new ones may be there. -/
structure Grows (r r' : Roster) : Prop where
  /-- A record stays, with its id and its tree, and is retired if it was. -/
  record : ∀ k c, r.get? k = some c →
    ∃ c', r'.get? k = some c' ∧ c'.id = c.id ∧ c'.retired = c.retired ∧ c'.tree = c.tree
  /-- A new record is live and has no tree. -/
  fresh : ∀ k c', r'.get? k = some c' → r.get? k = none → c'.retired = false ∧ c'.tree = none
  /-- The same handles are retired. -/
  retired : r'.retired = r.retired

namespace Grows

variable {r r' r'' : Roster}

theorem refl (r : Roster) : Grows r r where
  record _ c hc := ⟨c, hc, rfl, rfl, rfl⟩
  fresh _ _ hc hnone := by
    rw [hnone] at hc
    cases hc
  retired := rfl

theorem trans (h : Grows r r') (h' : Grows r' r'') : Grows r r'' where
  record k c hc := by
    obtain ⟨c₁, hc₁, hid, hret, htree⟩ := h.record k c hc
    obtain ⟨c₂, hc₂, hid', hret', htree'⟩ := h'.record k c₁ hc₁
    exact ⟨c₂, hc₂, hid'.trans hid, hret'.trans hret, htree'.trans htree⟩
  fresh k c₂ hc₂ hnone := by
    cases hc₁ : r'.get? k with
    | none => exact h'.fresh k c₂ hc₂ hc₁
    | some c₁ =>
        obtain ⟨c, hc, -, hret, htree⟩ := h'.record k c₁ hc₁
        obtain rfl := Option.some.inj (hc.symm.trans hc₂)
        obtain ⟨hret₁, htree₁⟩ := h.fresh k c₁ hc₁ hnone
        exact ⟨hret.trans hret₁, htree.trans htree₁⟩
  retired := h'.retired.trans h.retired

/-- All trees are as they were. -/
theorem tree? (h : Grows r r') (k : Handle) : r'.tree? k = r.tree? k := by
  unfold Roster.tree?
  cases hc : r.get? k with
  | some c =>
      obtain ⟨c', hc', -, -, htree⟩ := h.record k c hc
      rw [hc']
      exact htree
  | none =>
      cases hc' : r'.get? k with
      | none => rfl
      | some c' => exact (h.fresh k c' hc' hc).2

theorem of_get? (hget : ∀ k, r'.get? k = r.get? k) (hret : r'.retired = r.retired) :
    Grows r r' where
  record k c hc := ⟨c, (hget k).trans hc, rfl, rfl, rfl⟩
  fresh k c' hc' hnone := by
    rw [hget, hnone] at hc'
    cases hc'
  retired := hret

/-- **Every edit does no more than that.** -/
theorem of_edit {kinds : Kinds} {Good : Value → Prop} (hspare : r.SpareEmpty)
    (he : Edit kinds Good r r') : Grows r r' := by
  cases he with
  | marks seen drawn => exact of_get? (fun _ => rfl) rfl
  | keep hc => exact of_get? (fun _ => rfl) rfl
  | @rewrite h c props owner seen queue hc _ _ =>
      have hget := get?_put (r := r.keepState c) (lt_of_get? (r := r) hc)
        { c with
          assigns := ((kinds c.kind.key).update props c.assigns).1
          owner := owner <|> c.owner }
      refine ⟨fun k d hd => ?_, fun k d hd hnone => ?_, rfl⟩
      · by_cases hk : k = h
        · subst hk
          obtain rfl := Option.some.inj (hc.symm.trans hd)
          exact ⟨_, (hget k).trans (if_pos rfl), rfl, rfl, rfl⟩
        · exact ⟨d, ((hget k).trans (if_neg hk)).trans hd, rfl, rfl, rfl⟩
      · have hd := (hget k).symm.trans hd
        split at hd
        · next hk =>
            rw [hk, hc] at hnone
            cases hnone
        · have hnone' : (r.keepState c).get? k = none := hnone
          rw [hnone'] at hd
          cases hd
  | @create id kind props a b owner seen queue hid _ _ _ _ _ =>
      have hget := get?_create hspare id kind b owner
      refine ⟨fun k d hd => ?_, fun k d hd hnone => ?_, ?_⟩
      · have hne : k ≠ r.takeHandle.1 := by
          rintro rfl
          rw [get?_takeHandle hspare] at hd
          cases hd
        exact ⟨d, ((hget k).trans (if_neg hne)).trans hd, rfl, rfl, rfl⟩
      · have hd := (hget k).symm.trans hd
        split at hd
        · obtain rfl := Option.some.inj hd
          exact ⟨rfl, rfl⟩
        · rw [hnone] at hd
          cases hd
      · change (r.create id kind b owner).retired = r.retired
        rw [create_rest]

end Grows

end ViewSync.Roster
