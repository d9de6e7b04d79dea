import ViewSync.Proofs.Roster.Durable
import ViewSync.Proofs.View.FailedRender

/-!
# Durable properties of a view's roster

What is durable, is true of a new roster, and is kept by references from outside of stream entries
and by the templates of a view, is true in every state of the view and at the end of every pass.
-/

namespace ViewSync.Roster.Durable

open ViewSync.View

variable {P : Roster → Prop} {Q : Component → Prop} {v v' : View}

/-- What is durable is kept by a pass that goes well. -/
theorem renderAll (hP : Durable P Q) (hrender : Renders v.host P)
    (hroot : ∀ s before, Pass.Yields (fun p => P p.roster)
      (Pass.template v.host s v.root before) fun _ => True)
    (hv : P v.roster) {fuel : Nat} {done : Rendering} {p : Pass}
    (hall : v.renderAll fuel v.opened = some (.ok done, p)) : P p.roster := by
  obtain ⟨root, p₁, hrun, hqueue, -, -⟩ := renderAll_ok hall
  have hopen : P v.opened.roster := hP.congr hv rfl rfl rfl
  have hp₁ := (hroot (Scope.ofAssigns v.assigns) v.sent v.opened hopen).1
  rw [hrun] at hp₁
  exact hP.renderQueue hrender hp₁ hqueue

/-- **What is durable is kept by every command.** -/
theorem exec (hP : Durable P Q) (hrender : Renders v.host P)
    (hroot : ∀ s before, Pass.Yields (fun p => P p.roster)
      (Pass.template v.host s v.root before) fun _ => True)
    (hrefer : ∀ r id kind props, P r → P (r.refer v.host.kinds id kind props none).2)
    (hrest : v.roster.Resting) (hv : P v.roster) {cmd : Command} {answer : Answer}
    (hx : v.exec cmd = some (answer, v')) : P v'.roster := by
  cases effect_of_exec hx with
  | mount id kind props unsent => exact hrefer v.roster id kind props hv
  | unmount id unsent =>
      change P (v.roster.unmount id).2
      rw [unmount_snd]
      exact hP.retire hv id
  | deliver id props unsent => exact hP.deliver hv v.host.kinds id props
  | @render fuel result _ hr =>
      cases result with
      | error e =>
          rw [render_error hrest hr]
          exact hv
      | ok outcome =>
          obtain ⟨done, p, hall, -, rfl⟩ := render_ok hr
          exact hP.reclaim_tell (hP.closePass (hP.renderAll hrender hroot hv hall) _)
  | close => exact hP.reclaim_tell (hP.retireAll hv v.roster.ids.keys)
  | _ => exact hv

end ViewSync.Roster.Durable
