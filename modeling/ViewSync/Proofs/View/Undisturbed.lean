import ViewSync.Proofs.View.Ordered

/-!
# Undisturbed runs

Runs in which components come and go by references alone: none is taken out by hand, and no pass has
a failure to report. What is retired in such a run is retired at the end of a pass, and the client
is told at once, so that between passes every record is that of a live component.
-/

namespace ViewSync.View

open Roster

/-! ## Commands and answers -/

/-- Whether a command takes a component out by hand. -/
def Command.isUnmount : Command → Bool
  | .unmount _ => true
  | _ => false

/-- Whether an answer is without failures of components. -/
def Answer.isClean : Answer → Bool
  | .rendered (.ok outcome) _ => outcome.errors.isEmpty
  | _ => true

/-- The components that were mounted since the last pass that went well. -/
def mountedAfter (mounted : List Handle) : Command → Answer → List Handle
  | .mount .., .component (.ok h) => h :: mounted
  | .render _, .rendered (.ok _) _ => []
  | .close, _ => []
  | _, _ => mounted

/-- The states of a view of a template after a run that is undisturbed, with the components that
were mounted since its last pass. -/
inductive Undisturbed (host : Host) (root : Template) : List Handle → View → Prop where
  | start : Undisturbed host root [] (ofTemplate host root)
  | step {mounted : List Handle} {v v' : View} {cmd : Command} {answer : Answer} :
      Undisturbed host root mounted v → v.exec cmd = some (answer, v') →
      cmd.isUnmount = false → answer.isClean = true →
      Undisturbed host root (mountedAfter mounted cmd answer) v'

/-- The components that were mounted since the last pass, at the end of a run. -/
def mountedBy : List Handle → List Command → List Answer → List Handle
  | mounted, cmd :: cmds, answer :: answers =>
    mountedBy (mountedAfter mounted cmd answer) cmds answers
  | mounted, _, _ => mounted

namespace Undisturbed

variable {host : Host} {root : Template} {mounted : List Handle} {v v' : View}

theorem run {cmds : List Command} {answers : List Answer} (hv : Undisturbed host root mounted v)
    (hrun : v.run cmds = some (answers, v')) (hcmds : cmds.all (!·.isUnmount) = true)
    (hanswers : answers.all (·.isClean) = true) :
    Undisturbed host root (mountedBy mounted cmds answers) v' := by
  induction cmds generalizing mounted v answers with
  | nil =>
      obtain ⟨rfl, rfl⟩ := Prod.mk.inj (Option.some.inj hrun)
      exact hv
  | cons cmd cmds ih =>
      obtain ⟨answer, rest, w, hexec, hrest, rfl⟩ := run_cons hrun
      rw [List.all_cons, Bool.and_eq_true, Bool.not_eq_true'] at hcmds
      rw [List.all_cons, Bool.and_eq_true] at hanswers
      exact ih (hv.step hexec hcmds.1 hanswers.1) hrest hcmds.2 hanswers.2

theorem reachable (hv : Undisturbed host root mounted v) : Reachable host root v := by
  induction hv with
  | start => exact .start
  | step _ hexec _ _ ih => exact ih.step hexec

/-- The client is never behind with what is retired. -/
theorem retired (hv : Undisturbed host root mounted v) : v.roster.retired = [] := by
  induction hv with
  | start => rfl
  | @step mounted v v' cmd answer hv hexec hcmd _ ih =>
      have hrest := resting_reachable hv.reachable
      cases effect_of_exec hexec with
      | mount id kind props unsent =>
          have hedit : Edit v.host.kinds (fun _ => True) v.roster
              (v.roster.refer v.host.kinds id kind props none).2 :=
            edit_refer v.roster id kind none fun _ _ => trivial
          exact (Grows.of_edit hrest.arena.spare_empty hedit).retired.trans ih
      | unmount => cases hcmd
      | deliver id props unsent =>
          have hedit : Edit v.host.kinds (fun _ => True) v.roster
              (v.roster.deliver v.host.kinds id props).2 :=
            edit_deliver hrest.undo id fun _ _ => trivial
          exact (Grows.of_edit hrest.arena.spare_empty hedit).retired.trans ih
      | @render fuel result _ hr =>
          cases result with
          | error e =>
              rw [render_error hrest hr]
              exact ih
          | ok outcome =>
              obtain ⟨done, p, -, -, rfl⟩ := render_ok hr
              rfl
      | close => rfl
      | _ => exact ih

end Undisturbed

/-- What a run and the render after it come to, when a test of it succeeds and the run is
undisturbed. -/
theorem undisturbed_of_run (host : Host) (root : Template) (cmds : List Command) (fuel : Nat)
    (test : List Handle → View → Outcome → View → Bool)
    (h : ((ofTemplate host root).run cmds).any (fun x => cmds.all (!·.isUnmount) &&
      (x.1.all (·.isClean) && (x.2.render fuel).any fun y => y.1.toOption.any fun o =>
        o.errors.isEmpty && test (mountedBy [] cmds x.1) x.2 o y.2)) = true) :
    ∃ mounted v outcome v', Undisturbed host root mounted v ∧
      v.render fuel = some (.ok outcome, v') ∧ outcome.errors = [] ∧
      test mounted v outcome v' = true := by
  obtain ⟨⟨answers, v⟩, hrun, h⟩ := (Option.any_eq_true ..).mp h
  simp only [Bool.and_eq_true] at h
  obtain ⟨hcmds, hanswers, h⟩ := h
  obtain ⟨⟨result, v'⟩, hrender, h⟩ := (Option.any_eq_true ..).mp h
  obtain ⟨outcome, hok, h⟩ := (Option.any_eq_true ..).mp h
  simp only [Bool.and_eq_true, List.isEmpty_iff] at h
  cases result with
  | error e => cases hok
  | ok o =>
      obtain rfl : o = outcome := Option.some.inj hok
      exact ⟨_, v, o, v', Undisturbed.start.run hrun hcmds hanswers, hrender, h.1, h.2⟩

end ViewSync.View
