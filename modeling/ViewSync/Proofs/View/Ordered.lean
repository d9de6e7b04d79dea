import ViewSync.Proofs.Roster.Orderly
import ViewSync.Proofs.View.Standing

/-!
# Order in a view

The queue of every view is in order, and so is that of every pass once it is drained.
-/

namespace ViewSync

namespace View

open Roster

variable {v : View}

/-- A pass that goes well starts the next one with nothing seen. -/
theorem tidy_render {fuel : Nat} {outcome : Outcome} {v' : View}
    (hs : Standing (fun _ => True) v)
    (hr : v.render fuel = some (.ok outcome, v')) : Tidy none [] v'.roster := by
  have hrest := (hs.render hr).resting
  obtain ⟨done, p, hall, -, rfl⟩ := render_ok hr
  obtain ⟨hbrought, -⟩ := hs.renderAll hall
  refine tidy_of_unseen ?_ hrest.stillborn (seen_reclaim_tell _)
  have hqueue := queue_reclaim_tell (p.roster.closePass
    (v.streams.adopt ((v.streams.plans.filter fun e => !p.flushes.has e.1).map
      fun e => (e.1, e.2.held))).holds).2
  refine hqueue ▸ List.Pairwise.filter _ ?_
  rw [(retires_closePass p.roster _).queue, hbrought.queue]
  exact List.nodup_nil

/-- **The queue of a view is in order after every command.** -/
theorem tidy_exec {cmd : Command} {answer : Answer} {v' : View}
    (hs : Standing (fun _ => True) v) (ht : Tidy none [] v.roster)
    (hx : v.exec cmd = some (answer, v')) : Tidy none [] v'.roster := by
  cases effect_of_exec hx with
  | mount id kind props unsent =>
      have hu : Underway none v.roster := hs.resting.arena
      exact ht.refer hu v.host.kinds id kind props none
  | unmount id unsent =>
      change Tidy none [] (v.roster.unmount id).2
      rw [unmount_snd]
      exact ht.retire hs.resting id
  | deliver id props unsent => exact ht.deliver hs.resting v.host.kinds id props
  | @render fuel result _ hr =>
      cases result with
      | error e =>
          rw [render_error hs.resting hr]
          exact ht
      | ok outcome => exact tidy_render hs hr
  | close =>
      have hrest := hs.resting.unmountEach
      have hqueue : v.roster.unmountEach.2.tell.2.reclaim.queue.Nodup := by
        rw [queue_reclaim_tell, (retires_unmountEach v.roster).queue]
        exact List.Pairwise.filter _ ht.nodup
      refine ⟨hqueue, fun _ hk => (by cases hk), fun k hk => ?_, fun k c _ hc _ _ _ => ?_⟩
      · change k ∈ v.roster.unmountEach.2.tell.2.reclaim.stillborn at hk
        rw [hrest.reclaim_tell.stillborn] at hk
        cases hk
      · have hnone := get?_unmountEach hs.resting k
        exact absurd (hc.symm.trans hnone) (Option.some_ne_none c)
  | _ => exact ht

theorem tidy_reachable {host : Host} {root : Template} (hv : Reachable host root v) :
    Tidy none [] v.roster := by
  refine (hv.invariant (P := fun v => Standing (fun _ => True) v ∧ Tidy none [] v.roster)
    ⟨standing_start trivial fun _ _ => trivial, tidy_ofConfig host.config⟩ ?_).2
  exact fun _ _ _ _ h hx => ⟨h.1.exec hx, tidy_exec h.1 h.2 hx⟩

/-- The queue is in order when the root is rendered. -/
theorem tidy_course {p₁ : Pass} {rs : Refs} {fs : List (String × Stream.Flush)}
    (hcourse : Pass.Course v.host.kinds v.opened rs fs p₁) (hrest : v.roster.Resting)
    (ht : Tidy none [] v.roster) : Tidy none [] p₁.roster := by
  have hopen : Underway none v.opened.roster ∧ Tidy none [] v.opened.roster :=
    ⟨hrest.arena.congr rfl rfl rfl rfl rfl, ht.nodup, ht.idle, ht.stillborn, ht.covered⟩
  exact (hcourse.keeps (Tidy.closed none v.host.kinds []) hopen).2

/-- **The queue is in order when a pass has drained it**, with all drawings tried. -/
theorem Account.tidy {S : Shape → Prop} {fuel : Nat} {done : Rendering} {p p₁ p₂ : Pass}
    {root : Tree} {rs : Refs} {fs : List (String × Stream.Flush)} {former : FormerTrees}
    (ha : Account S v fuel done p root rs fs p₁ p₂ former) (hrest : v.roster.Resting)
    (ht : Tidy none [] v.roster) :
    Tidy none ((v.drawings fuel).map Drawing.handle) p₂.roster := by
  exact ha.drains.tidy ha.kinds ha.redrawn (tidy_course ha.course hrest ht)

end View

end ViewSync
