import ViewSync.Proofs.Roster.Drawings
import ViewSync.Proofs.Roster.Tidy

/-!
# Order from one pass to the next

The queue is in order at the start of a pass, and stays so from one drawing to the next, where what
was drawn counts as tried. Between passes nothing was tried: whatever is seen then, since it was
mounted or delivered to, is seen with all that is in it, or is queued.
-/

namespace ViewSync.Roster

open ViewSync.Pass

variable {host : Host} {p₀ p q : Pass} {ds : List Drawing} {h : Handle} {c : Component}
variable {former : FormerTrees} {result : Except Error Tree} {tried : List Handle}

/-! ## One drawing -/

section Draws

variable {rs : Refs} {fs : List (String × Stream.Flush)}
variable (hd : Draws host p h c rs fs q result) (hr : p.roster.Arena)
include hd hr

theorem Draws.underway : Underway (some (h, c)) (begun p h c).roster := by
  obtain ⟨haway, hback⟩ := hd.away_begun hr
  refine ⟨haway, ?_⟩
  rw [hback]
  exact hr.congr rfl rfl rfl rfl rfl

omit hr in
/-- What leaves the queue is not in it any more. -/
theorem Draws.tidy_begun (ht : Tidy none tried p.roster) :
    Tidy (some h) tried (begun p h c).roster := by
  obtain ⟨queue, hqueue⟩ := List.head?_eq_some_iff.mp hd.next
  have htail : (begun p h c).roster.queue = queue := queue_begun c hqueue
  obtain ⟨hout, hnodup⟩ := List.nodup_cons.mp (hqueue ▸ ht.nodup)
  refine ⟨?_, ?_, fun k hk => ?_, fun k d t hk hlive htree hin => ?_⟩
  · rw [htail]
    exact hnodup
  · intro k hk
    rw [htail]
    exact Option.some.inj hk ▸ hout
  · obtain ⟨hidle, hrecord⟩ := ht.stillborn k hk
    rw [hqueue] at hidle
    have hne : k ≠ h := fun heq => hidle (heq ▸ List.mem_cons_self)
    rw [htail, get?_begun_of_ne hne]
    exact ⟨fun hin => hidle (List.mem_cons_of_mem _ hin), hrecord⟩
  · obtain ⟨hne, hk⟩ := of_get?_begun hk
    rw [htail]
    refine (ht.covered k d t hk hlive htree hin).imp_left fun hin => ?_
    exact (List.mem_cons.mp (hqueue ▸ hin)).resolve_left hne

/-- **One drawing keeps the order**, and is one more that was tried. -/
theorem Draws.tidy (ht : Tidy none tried p.roster) :
    Tidy none (tried ++ [h]) (Roster.settle q h c former result).2.2.roster := by
  have hclosed := Tidy.closed (some (h, c)) host.kinds tried
  obtain ⟨hunderway, hq⟩ := hd.course.keeps hclosed ⟨hd.underway hr, hd.tidy_begun ht⟩
  obtain ⟨c', -, -, htree', hget⟩ := get?_settle former (hd.lt_slots hr) hd.recovers
  obtain ⟨-, slots, stillborn, heq, hborn⟩ := settle_rest q h c former result
  rw [heq] at hget ⊢
  refine ⟨hq.nodup, fun _ hk => (by cases hk), fun k hk => ?_, fun k d t hk hlive htree hin => ?_⟩
  · rcases hborn k hk with hk | ⟨rfl, hnone, hfailed⟩
    · obtain ⟨hidle, d, hd, hnone⟩ := hq.stillborn k hk
      refine ⟨hidle, d, ?_, hnone⟩
      rw [hget, if_neg fun heq => ?_, hd]
      rw [heq, hunderway.1.get?] at hd
      cases hd
    · refine ⟨hq.idle k rfl, c', (hget k).trans (if_pos rfl), ?_⟩
      rw [htree', hfailed, hnone]
      rfl
  · rw [hget] at hk
    split at hk
    · next hkh => exact .inr (.inl (List.mem_append_right _ (List.mem_singleton.mpr hkh)))
    · exact (hq.covered k d t hk hlive htree hin).imp_right fun hrest =>
        hrest.imp_left (List.mem_append_left _)

end Draws

/-- **Draining keeps the order.** -/
theorem Drains.tidy {S : Shape → Prop} {r₀ : Roster}
    (hS : ∀ key a, S ((host.kinds key).render a).shape)
    (hp₀ : Redrawn S r₀ none p₀.roster []) (ht : Tidy none tried p₀.roster)
    (hd : Drains host p₀ ds p former) :
    Tidy none (tried ++ ds.map Drawing.handle) p.roster := by
  refine hd.induct (P := fun ds p _ => Tidy none (tried ++ ds.map Drawing.handle) p.roster) hS hp₀
    ?_ ?_ ?_
  · rwa [List.map_nil, List.append_nil]
  · intro ds p former h queue ih hq hret
    obtain ⟨-, hnodup⟩ := List.nodup_cons.mp (hq ▸ ih.nodup)
    refine ⟨hnodup, fun _ hk => (by cases hk), fun k hk => ?_, fun k c t hc hlive htree hin => ?_⟩
    · obtain ⟨hidle, hrecord⟩ := ih.stillborn k hk
      rw [hq] at hidle
      exact ⟨fun hin => hidle (List.mem_cons_of_mem _ hin), hrecord⟩
    · refine (ih.covered k c t hc hlive htree hin).imp_left fun hin => ?_
      refine (List.mem_cons.mp (hq ▸ hin)).resolve_left ?_
      -- what is skipped is not live
      rintro rfl
      rw [hret c hc] at hlive
      cases hlive
  · intro ds p former h c rs fs q result ih hredrawn hdraw
    rw [List.map_append, ← List.append_assoc]
    exact hdraw.tidy hredrawn.arena ih

/-! ## Between passes -/

section Between

variable {r : Roster}

theorem tidy_ofConfig (c : Config) : Tidy none [] (ofConfig c) where
  nodup := List.nodup_nil
  idle _ hk := by cases hk
  stillborn _ hk := by cases hk
  covered _ _ _ _ _ _ hin := by cases hin

/-- Nothing is seen: that is the end of a pass. -/
theorem tidy_of_unseen (hnodup : r.queue.Nodup) (hborn : r.stillborn = []) (hseen : r.seen = []) :
    Tidy none [] r where
  nodup := hnodup
  idle _ hk := by cases hk
  stillborn k hk := by
    rw [hborn] at hk
    cases hk
  covered k _ _ _ _ _ hin := by
    rw [hseen] at hin
    cases hin

/-- What is retired is not seen any more, and what refers to it finds it retired. -/
theorem Tidy.retire (ht : Tidy none [] r) (hr : r.Resting) (id : String) :
    Tidy none [] (r.retire id).2 := by
  cases hid : r.handle? id with
  | none =>
      rw [retire_of_none hid]
      exact ht
  | some h =>
      obtain ⟨c, hc, -, -, heq⟩ := retire_of_handle? hr.arena hid
      rw [heq]
      have hget := get?_put (lt_of_get? hc) { c with retired := true }
      refine ⟨ht.nodup, fun _ hk => (by cases hk), fun k hk => ?_,
        fun k d t hk hlive htree hin => ?_⟩
      · change k ∈ r.stillborn at hk
        rw [hr.stillborn] at hk
        cases hk
      · have hk := (hget k).symm.trans hk
        split at hk
        · obtain rfl := Option.some.inj hk
          cases hlive
        · have hin : k ∈ r.seen := (KeySet.mem_erase.mp hin).1
          refine (ht.covered k d t hk hlive htree hin).imp_right fun hrest =>
            hrest.imp_right fun hall x hx => ?_
          change x ∈ r.seen.erase h ∨ x ∈ r.retired ++ [h]
          rw [KeySet.mem_erase, List.mem_append, List.mem_singleton]
          by_cases hxh : x = h
          · exact .inr (.inr hxh)
          · exact (hall x hx).imp (fun hin => ⟨hin, hxh⟩) .inl

/-- Props that are delivered may queue a component. -/
theorem Tidy.deliver (ht : Tidy none [] r) (hr : r.Resting) (kinds : Kinds) (id : String)
    (props : Fields) : Tidy none [] (r.deliver kinds id props).2 := by
  have hborn (h : Handle) : h ∉ r.stillborn := by
    rw [hr.stillborn]
    exact List.not_mem_nil
  unfold Roster.deliver
  split
  · exact ht
  · next h _ =>
      split
      · exact ht
      · next c hc =>
          have hput : Tidy none [] (r.put h
              { c with assigns := ((kinds c.kind.key).update props c.assigns).1 }) := by
            refine ht.grow [] ⟨fun k d hd => ?_, fun k d hd hnone => ?_, rfl⟩ rfl rfl
              (followed_nil _)
            · rw [get?_put (lt_of_get? hc)]
              split
              · next hk =>
                  obtain rfl := Option.some.inj (hc.symm.trans (hk ▸ hd))
                  exact ⟨_, rfl, rfl, rfl, rfl⟩
              · exact ⟨d, hd, rfl, rfl, rfl⟩
            · rw [get?_put (lt_of_get? hc)] at hd
              split at hd
              · next hk =>
                  rw [hk, hc] at hnone
                  cases hnone
              · rw [hnone] at hd
                cases hd
          dsimp only
          split
          · exact hput
          · split
            · exact hput.schedule (by simp) (hborn h)
            · exact hput

end Between

end ViewSync.Roster
