import ViewSync.Proofs.Roster.Renewal
import ViewSync.Proofs.Roster.Replies

/-!
# Components that are left behind

A live component is left behind when its assigns were written since it was rendered and it is not
queued, so that nothing is going to render it. In a pass without failures a component that is
referred to is queued if it has to be rendered, and one that is queued is rendered. So whatever is
behind at the end of such a pass was so at the start, with the very same record, and no tree of the
pass refers to it.
-/

namespace ViewSync.Roster

open ViewSync.Pass

/-- A live component was written to since it was rendered, and nothing is going to render it. -/
structure Behind (r : Roster) (k : Handle) (c : Component) : Prop where
  /-- It has a record. -/
  record : r.get? k = some c
  /-- It is live. -/
  live : c.retired = false
  /-- It was written to since it was rendered. -/
  written : c.assigns.anyWritten = true
  /-- It is not queued. -/
  idle : k ∉ r.queue

/-- A roster in a pass without failures, and the handles that were referred to so far: whoever was
written to is queued, or was behind already when the pass began, and is so still. -/
structure Abreast (r₀ : Roster) (refs : List Handle) (r : Roster) : Prop where
  /-- References may be made. -/
  ready : r.Ready
  /-- Who was written to is queued, or was behind before and not referred to. -/
  fresh : ∀ k c, r.get? k = some c → c.retired = false → c.assigns.anyWritten = true →
    k ∈ r.queue ∨ (r₀.Behind k c ∧ k ∉ refs)
  /-- Who was behind and was not referred to is so still. -/
  kept : ∀ k c, r₀.Behind k c → k ∉ refs → r.get? k = some c ∧ k ∉ r.queue

namespace Abreast

variable {r₀ r r' : Roster} {refs : List Handle}

theorem start (hr : r.Ready) : Abreast r [] r where
  ready := hr
  fresh k c hc hlive hwritten := by
    by_cases hk : k ∈ r.queue
    · exact .inl hk
    · exact .inr ⟨⟨hc, hlive, hwritten, hk⟩, List.not_mem_nil⟩
  kept _ _ hb _ := ⟨hb.record, hb.idle⟩

/-- Marks do not matter. -/
theorem congr (ha : Abreast r₀ refs r) (hready : r'.Ready) (hslots : r'.slots = r.slots)
    (hqueue : r'.queue = r.queue) : Abreast r₀ refs r' := by
  have hget (k : Handle) : r'.get? k = r.get? k := by rw [get?, get?, hslots]
  refine ⟨hready, fun k c hc => ?_, fun k c hb hk => ?_⟩
  · rw [hqueue]
    exact ha.fresh k c (hget k ▸ hc)
  · rw [hget, hqueue]
    exact ha.kept k c hb hk

theorem replied {id : String} {owner : Option StreamEntry} {h : Handle} (ha : Abreast r₀ refs r)
    (hready : r'.Ready) (hr : Replied r id owner h r') : Abreast r₀ (refs ++ [h]) r' where
  ready := hready
  fresh k c hc hlive hwritten := by
    by_cases hk : k = h
    · subst hk
      exact .inl (hr.fresh c hc (by rw [Component.isStale, hwritten, Bool.or_true]))
    · rw [hr.others k hk] at hc
      refine (ha.fresh k c hc hlive hwritten).imp (hr.queue k hk).mpr fun hb => ⟨hb.1, ?_⟩
      simpa [hk] using hb.2
  kept k c hb hout := by
    obtain ⟨hout, hk⟩ : k ∉ refs ∧ k ≠ h := by simpa using hout
    obtain ⟨hc, hidle⟩ := ha.kept k c hb hout
    exact ⟨(hr.others k hk).trans hc, fun hin => hidle ((hr.queue k hk).mp hin)⟩

/-- **Whoever is referred to in a smooth course keeps up.** -/
theorem course {kinds : Kinds} {p q : Pass} {acts : List Action} (ha : Abreast r₀ refs p.roster)
    (hs : Smooth kinds p acts q) :
    Abreast r₀ (refs ++ (acts.map Action.mark).filterMap Mark.handle?) q.roster := by
  induction hs generalizing refs with
  | done p => simpa using ha
  | @refer p q acts id kind props owner h changed hok _ ih =>
      have hreply := replied_refer ha.ready (Prod.ext hok rfl)
      have hnext := ih (ha.replied (ha.ready.refer kinds id kind props owner) hreply)
      rwa [List.append_assoc] at hnext
  | take name _ ih => exact ih ha
  | @draw p q acts e _ ih =>
      obtain ⟨drawn, hdrawn, -⟩ := noteDrawn_eq p.roster e
      refine ih (ha.congr (ha.ready.noteDrawn e) ?_ ?_)
      · rw [hdrawn]
      · rw [hdrawn]

end Abreast

variable {host : Host} {r₀ : Roster} {refs : List Handle} {p₀ p q : Pass} {h : Handle}
variable {c : Component} {rs : Refs} {fs : List (String × Stream.Flush)} {t : Tree}

/-- A component that is queued was not left behind, so it may be taken from the queue. -/
theorem Abreast.begun (ha : Abreast r₀ refs p.roster) (hq : p.roster.queue.head? = some h)
    (c : Component) : Abreast r₀ refs (begun p h c).roster := by
  have hqueue : p.roster.queue = h :: p.roster.queue.tail := by
    rw [List.eq_cons_of_mem_head? hq, List.tail_cons]
  refine ⟨ha.ready.begun h c, fun k d hd hlive hwritten => ?_, fun k d hb hout => ?_⟩
  · obtain ⟨hne, hd⟩ := of_get?_begun hd
    refine (ha.fresh k d hd hlive hwritten).imp_left fun hin => ?_
    rw [hqueue] at hin
    exact (List.mem_cons.mp hin).resolve_left hne
  · obtain ⟨hd, hidle⟩ := ha.kept k d hb hout
    have hne : k ≠ h := by
      rintro rfl
      exact hidle (hqueue ▸ List.mem_cons_self)
    exact ⟨(get?_begun_of_ne hne).trans hd, fun hin => hidle (List.mem_of_mem_tail hin)⟩

/-- Once it was drawn, nothing is written to it any more. -/
theorem Abreast.settle (ha : Abreast r₀ refs q.roster) (hdraw : Draws host p h c rs fs q (.ok t))
    (hr : p.roster.Arena) (former : FormerTrees) :
    Abreast r₀ refs (settle q h c former (.ok t)).2.2.roster := by
  obtain ⟨haway, harena, hget⟩ := hdraw.put_back hr former
  refine ⟨harena.ready ha.ready.stillborn, fun k d hd hlive hwritten => ?_, fun k d hb hout => ?_⟩
  · rw [hget] at hd
    split at hd
    · obtain rfl := Option.some.inj hd
      cases hwritten
    · exact ha.fresh k d hd hlive hwritten
  · obtain ⟨hd, hidle⟩ := ha.kept k d hb hout
    have hne : k ≠ h := by
      rintro rfl
      cases haway.symm.trans hd
    exact ⟨(hget k).trans ((if_neg hne).trans hd), hidle⟩

/-- **Draining leaves behind whom the pass never refers to, and no one else.** -/
theorem Drains.abreast {S : Shape → Prop} {r₁ : Roster} {ds : List Drawing} {former : FormerTrees}
    (hS : ∀ key a, S ((host.kinds key).render a).shape) (hp₀ : Redrawn S r₁ none p₀.roster [])
    (hnamed : p₀.Named) (ha : Abreast r₀ refs p₀.roster) (hd : Drains host p₀ ds p former)
    (herrors : p.errors = []) : Abreast r₀ (refs ++ ds.flatMap Drawing.handles) p.roster := by
  refine hd.smooth (P := fun ds p _ => Abreast r₀ (refs ++ ds.flatMap Drawing.handles) p.roster)
    hS hp₀ hnamed (by simpa using ha) ?_ ?_ herrors
  · intro ds p former h queue ih hq hret
    -- what is skipped is not live
    refine ⟨ih.ready.congr rfl rfl rfl rfl, fun k d hd hlive hwritten => ?_, fun k d hb hout => ?_⟩
    · refine (ih.fresh k d hd hlive hwritten).imp_left fun hin => ?_
      rw [hq] at hin
      refine (List.mem_cons.mp hin).resolve_left ?_
      rintro rfl
      cases (hret d hd).symm.trans hlive
    · obtain ⟨hd, hidle⟩ := ih.kept k d hb hout
      exact ⟨hd, fun hin => hidle (hq ▸ List.mem_cons_of_mem h hin)⟩
  · intro ds p former h c rs fs q t acts ih hredrawn hdraw hacts hrecalls
    have hdrawn := ((ih.begun hdraw.next c).course hacts).settle hdraw hredrawn.arena former
    rw [← hrecalls, ← (hdraw.fits hredrawn).handles_eq, List.append_assoc] at hdrawn
    simpa [List.flatMap_append, Drawing.handles, Except.toOption] using hdrawn

/-! ## Outside of passes -/

namespace Behind

variable {kinds : Kinds} {r r' : Roster} {id : String} {props : Fields} {k : Handle}

/-- A reference that goes well leaves no one behind. -/
theorem of_refer {kind : KindRef} {owner : Option StreamEntry} {changed : Bool} (hr : r.Ready)
    (hok : r.refer kinds id kind props owner = (.ok (h, changed), r')) (hb : r'.Behind k c) :
    r.Behind k c := by
  have hready : r'.Ready := by
    have hafter := hr.refer kinds id kind props owner
    rwa [hok] at hafter
  have habreast := (Abreast.start hr).replied hready (replied_refer hr hok)
  exact ((habreast.fresh k c hb.record hb.live hb.written).resolve_left hb.idle).1

/-- Nor do props that are taken in. -/
theorem of_deliver (hok : r.deliver kinds id props = (.ok h, r')) (hb : r'.Behind k c) :
    r.Behind k c := by
  unfold deliver at hok
  split at hok
  · cases hok
  · next j hj =>
      split at hok
      · cases hok
      · next d hd =>
          dsimp only at hok
          split at hok
          · cases hok
          · obtain ⟨-, hafter⟩ := Prod.mk.inj hok
            clear hok
            generalize hd' : { d with
              assigns := ((kinds d.kind.key).update props d.assigns).1 } = d' at hafter
            have hget : r'.get? k = if k = j then some d' else r.get? k := by
              rw [← get?_put (lt_of_get? hd) d' k, ← hafter]
              split
              · exact get?_schedule ..
              · rfl
            have hc := hget.symm.trans hb.record
            split at hc
            · next hk =>
                -- it was written to, so it is queued
                obtain rfl := Option.some.inj hc
                rw [Component.isStale, hb.written, Bool.or_true, if_pos rfl] at hafter
                obtain ⟨queue, hq, hin, -⟩ := schedule_eq (r.put j d') j
                refine absurd ?_ hb.idle
                rw [← hafter, hq, hk]
                exact hin
            · next hk =>
                refine ⟨hc, hb.live, hb.written, fun hin => hb.idle ?_⟩
                rw [← hafter]
                split
                · exact (mem_queue_schedule_of_ne hk).mpr hin
                · exact hin

/-- Retiring components leaves no one behind. -/
theorem of_retires (hr : Retires r r') (hb : r'.Behind k c) : r.Behind k c := by
  obtain ⟨d, hd, heq, hlive⟩ := hr.record k c hb.record
  have hsame : d = c := by rw [heq, hb.live, ← hlive hb.live]
  exact ⟨hsame ▸ hd, hb.live, hb.written, hr.queue ▸ hb.idle⟩

end Behind

end ViewSync.Roster
