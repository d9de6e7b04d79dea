import ViewSync.Proofs.Roster.Orderly

/-!
# What is referred to is there

A reference that is answered with a handle leaves a live component under it, and so does everything
that a pass does afterwards until it is closed. So whatever a tree refers to that was rendered in a
pass is live at the end of the pass, unless it is stillborn.
-/

namespace ViewSync.Roster

open ViewSync.Pass

/-- There is a component that has not been retired. -/
def Lives (r : Roster) (h : Handle) : Prop := ∃ c, r.get? h = some c ∧ c.retired = false

variable {r r' : Roster} {h : Handle}

theorem Lives.grow (hl : r.Lives h) (hg : Grows r r') : r'.Lives h := by
  obtain ⟨c, hc, hlive⟩ := hl
  obtain ⟨c', hc', -, hret, -⟩ := hg.record h c hc
  exact ⟨c', hc', hret.trans hlive⟩

/-- The handle that a reference is answered with belongs to the id. -/
theorem handle?_refer {kinds : Kinds} {id : String} {kind : KindRef} {props : Fields}
    {owner : Option StreamEntry} {changed : Bool}
    (hok : (r.refer kinds id kind props owner).1 = .ok (h, changed)) :
    (r.refer kinds id kind props owner).2.handle? id = some h := by
  have hspec := refer_spec kinds r id kind props owner
  generalize (r.refer kinds id kind props owner).1 = x at hspec hok
  generalize (r.refer kinds id kind props owner).2 = r' at hspec ⊢
  cases hspec with
  | refused e => cases hok
  | failed => cases hok
  | stillborn hid _ =>
      obtain ⟨rfl, -⟩ := Prod.mk.inj (Except.ok.inj hok)
      exact hid
  | inside hid _ =>
      obtain ⟨rfl, -⟩ := Prod.mk.inj (Except.ok.inj hok)
      exact hid
  | @stale k c hid _ _ _ =>
      obtain ⟨rfl, -⟩ := Prod.mk.inj (Except.ok.inj hok)
      obtain ⟨queue, hq, -⟩ := schedule_eq ((r.handOver kinds k c props owner).see k) k
      rw [hq]
      exact hid
  | unchanged hid _ _ _ =>
      obtain ⟨rfl, -⟩ := Prod.mk.inj (Except.ok.inj hok)
      exact hid
  | @created a b _ _ _ =>
      obtain ⟨rfl, -⟩ := Prod.mk.inj (Except.ok.inj hok)
      obtain ⟨queue, hq, -⟩ := schedule_eq ((r.create id kind b owner).see r.takeHandle.1)
        r.takeHandle.1
      rw [hq]
      exact (handle?_create r id kind b owner id).trans (if_pos rfl)

variable {kinds : Kinds} {p q : Pass} {rs : Refs} {fs : List (String × Stream.Flush)}

/-- What is live stays so while a template is rendered. -/
theorem closed_lives (now : Option (Handle × Component)) (h : Handle) :
    Pass.Closed kinds (fun _ => True) fun p =>
      p.Offers (fun _ => True) ∧ Underway now p.roster ∧ p.roster.Lives h :=
  closed_edit (I := fun r => Underway now r ∧ r.Lives h) (fun _ => trivial) fun _ _ hr he =>
    ⟨hr.1.edit he, hr.2.grow (.of_edit hr.1.spare_empty he)⟩

/-- **What is referred to on the way is live in the end**, or is being drawn. -/
theorem lives_course {now : Option (Handle × Component)} (hu : Underway now p.roster)
    (hcourse : Course kinds p rs fs q) :
    ∀ h ∈ rs.map Prod.fst, q.roster.Lives h ∨ now.map Prod.fst = some h := by
  induction hcourse with
  | done p => exact List.forall_mem_nil _
  | @refer p q rs fs id kind props owner h changed hok hrest ih =>
      have hu' := hu.refer kinds id kind props owner
      refine List.forall_mem_cons.mpr ⟨?_, ih hu'⟩
      rcases hu'.of_handle? (handle?_refer hok) with ⟨c, hc, -, hlive⟩ | ⟨c, rfl, -⟩
      · have hkept := hrest.keeps (closed_lives now h)
          ⟨fun _ _ _ _ _ => trivial, hu', c, hc, hlive⟩
        exact .inl hkept.2.2
      · exact .inr rfl
  | @refuse p q rs fs id kind props owner e herr hrest ih =>
      exact ih (hu.refer kinds id kind props owner)
  | @draw p q rs fs e hrest ih =>
      have hedit : Edit kinds (fun _ => True) p.roster (p.roster.noteDrawn e) :=
        edit_noteDrawn p.roster e
      exact ih (hu.edit hedit)
  | take hget hrest ih => exact ih hu
  | note e hrest ih => exact ih hu

section Draws

variable {host : Host} {c : Component} {former : FormerTrees} {result : Except Error Tree}

variable (former) in
/-- After a drawing, all that it referred to is live. -/
theorem Draws.lives (hd : Draws host p h c rs fs q result) (hr : p.roster.Arena) :
    ∀ k ∈ rs.map Prod.fst, (Roster.settle q h c former result).2.2.roster.Lives k := by
  intro k hk
  obtain ⟨c', -, hret, -, hget⟩ := get?_settle former (hd.lt_slots hr) hd.recovers
  by_cases hkh : k = h
  · exact ⟨c', (hget k).trans (if_pos hkh), hret.trans hd.live⟩
  · rcases lives_course (hd.underway hr) hd.course k hk with ⟨d, hd', hlive⟩ | heq
    · exact ⟨d, ((hget k).trans (if_neg hkh)).trans hd', hlive⟩
    · exact absurd (Option.some.inj heq).symm hkh

variable {p₀ : Pass} {ds : List Drawing} {S : Shape → Prop} {r₀ : Roster}

/-- **Whatever a tree refers to that was drawn is live when the queue is drained.** -/
theorem Drains.lives (hS : ∀ key a, S ((host.kinds key).render a).shape)
    (hp₀ : Redrawn S r₀ none p₀.roster []) (hd : Drains host p₀ ds p former) :
    ∀ d ∈ ds, ∀ t, d.result = .ok t → ∀ k ∈ t.handles, p.roster.Lives k := by
  refine hd.induct (P := fun ds p _ =>
    ∀ d ∈ ds, ∀ t, d.result = .ok t → ∀ k ∈ t.handles, p.roster.Lives k) hS hp₀
    (List.forall_mem_nil _) (fun ih _ _ => ih) ?_
  intro ds p former h c rs fs q result ih hredrawn hdraw
  refine List.forall_mem_append.mpr ⟨fun d hd t ht k hk => ?_, ?_⟩
  · obtain ⟨e, he, hlive⟩ := ih d hd t ht k hk
    obtain ⟨e', he', -, hret⟩ := hdraw.record_settle former hredrawn.arena he
    exact ⟨e', he', hret.trans hlive⟩
  · refine List.forall_mem_singleton.mpr fun t ht k hk => ?_
    refine hdraw.lives former hredrawn.arena k ?_
    rw [← (hdraw.tells t ht).handles]
    exact hk

end Draws

end ViewSync.Roster
