import ViewSync.View

/-!
# Runs of a view

Everything that a host may do to a view, as commands, and what a view answers. A run is a list of
commands from a new view on. A render that uses up its fuel has no answer, and so has a run with
such a render in it.
-/

namespace ViewSync

namespace Assigns

/-- A write to assigns. -/
inductive Write where
  | set (name : String) (v : Value)
  | setAll (entries : List (String × Value))
  /-- A value for a name that has none. -/
  | setDefault (name : String) (init : Assigns → Value)
  /-- A value made from the one that is there. Nothing happens if there is none. -/
  | update (name : String) (f : Value → Value)
  /-- The values that differ from those that are there. -/
  | merge (entries : List (String × Value))
  /-- Every name counts as written. -/
  | invalidate

/-- The assigns after a write. -/
def write (a : Assigns) : Write → Assigns
  | .set name v => a.set name v
  | .setAll entries => a.setAll entries
  | .setDefault name init => (a.setDefault name init).1
  | .update name f =>
    match a.update name f with
    | .ok a => a
    | .error _ => a
  | .merge entries => (a.merge entries).1
  | .invalidate => a.invalidate

end Assigns

namespace View

/-! ## What a render comes to -/

/-- The pass that a render starts with. -/
def opened (v : View) : Pass :=
  { roster := v.roster.openPass
    flushes := Keyed.ofList (v.streams.plans.map fun (name, plan) => (name, plan.flush)) }

/-- A render that fails undoes its pass, and one that goes well settles it. -/
theorem render_cases {v w : View} {fuel : Nat} {result : Except Error Outcome}
    (h : v.render fuel = some (result, w)) :
    (∃ e p, v.renderAll fuel v.opened = some (.error e, p) ∧ result = .error e ∧
      w = { v with roster := p.roster.undoPass }) ∨
    ∃ done p, v.renderAll fuel v.opened = some (.ok done, p) ∧
      result = .ok (v.settle v.streams.plans done p).1 ∧
      w = (v.settle v.streams.plans done p).2 := by
  unfold render at h
  dsimp only at h
  split at h
  · cases h
  · next e p hall =>
      obtain ⟨rfl, rfl⟩ := Prod.mk.inj (Option.some.inj h)
      exact .inl ⟨e, p, hall, rfl, rfl⟩
  · next done p hall =>
      obtain ⟨rfl, rfl⟩ := Prod.mk.inj (Option.some.inj h)
      exact .inr ⟨done, p, hall, rfl, rfl⟩

/-- A render that goes well settles its pass. -/
theorem render_ok {v w : View} {fuel : Nat} {outcome : Outcome}
    (h : v.render fuel = some (.ok outcome, w)) :
    ∃ done p, v.renderAll fuel v.opened = some (.ok done, p) ∧
      outcome = (v.settle v.streams.plans done p).1 ∧
      w = (v.settle v.streams.plans done p).2 := by
  rcases render_cases h with ⟨e, p, -, hresult, -⟩ | ⟨done, p, hall, hresult, hw⟩
  · cases hresult
  · exact ⟨done, p, hall, Except.ok.inj hresult, hw⟩

theorem render_of_renderAll {v : View} {fuel : Nat} {p : Pass} {done : Rendering}
    (h : v.renderAll fuel v.opened = some (.ok done, p)) :
    v.render fuel =
      some (.ok (v.settle v.streams.plans done p).1, (v.settle v.streams.plans done p).2) := by
  rw [opened] at h
  unfold render
  simp only [h]

/-- A pass ends where the root fails, or where the queue does or is done with. -/
theorem renderAll_cases {v : View} {fuel : Nat} {p p' : Pass} {result : Except Error Rendering}
    (h : v.renderAll fuel p = some (result, p')) :
    (∃ e, (Pass.template v.host (Scope.ofAssigns v.assigns) v.root v.sent).run p =
      (.error e, p')) ∨
    ∃ root p₁ queued,
      (Pass.template v.host (Scope.ofAssigns v.assigns) v.root v.sent).run p = (.ok root, p₁) ∧
      Roster.renderQueue v.host fuel p₁ = some (queued, p') := by
  unfold renderAll at h
  split at h
  · next e p₁ hrun =>
      obtain ⟨-, rfl⟩ := Prod.mk.inj (Option.some.inj h)
      exact .inl ⟨e, hrun⟩
  · next root p₁ hrun =>
      right
      split at h
      · cases h
      · next e p₂ hqueue =>
          obtain ⟨-, rfl⟩ := Prod.mk.inj (Option.some.inj h)
          exact ⟨root, p₁, _, hrun, hqueue⟩
      · next components p₂ hqueue =>
          obtain ⟨-, rfl⟩ := Prod.mk.inj (Option.some.inj h)
          exact ⟨root, p₁, _, hrun, hqueue⟩

/-- A pass that goes well renders the root, then the queue, and compares the root last. -/
theorem renderAll_ok {v : View} {fuel : Nat} {p p' : Pass} {done : Rendering}
    (h : v.renderAll fuel p = some (.ok done, p')) :
    ∃ root p₁,
      (Pass.template v.host (Scope.ofAssigns v.assigns) v.root v.sent).run p = (.ok root, p₁) ∧
      Roster.renderQueue v.host fuel p₁ = some (.ok done.components, p') ∧
      done.root = p'.roster.blankStillborn root ∧
      Tree.patchFrom .nowhere v.sent done.root = .ok done.patch := by
  unfold renderAll at h
  split at h
  · cases h
  · next root p₁ hrun =>
      split at h
      · cases h
      · cases h
      · next components p₂ hqueue =>
          obtain ⟨hdone, rfl⟩ := Prod.mk.inj (Option.some.inj h)
          cases hpatch : Tree.patchFrom .nowhere v.sent (p₂.roster.blankStillborn root) with
          | error e =>
              rw [hpatch] at hdone
              cases hdone
          | ok patch =>
              rw [hpatch] at hdone
              obtain rfl := Except.ok.inj hdone
              exact ⟨root, p₁, hrun, hqueue, rfl, hpatch⟩

/-! ## Commands -/

/-- What a host may do to a view. -/
inductive Command where
  | write (w : Assigns.Write)
  | mount (id : String) (kind : KindRef) (props : Fields)
  | unmount (id : String)
  /-- Props are handed to a component. -/
  | deliver (id : String) (props : Fields)
  | keyStream (name : String) (keyOf : Value → Value)
  | changeStream (name : String) (c : Stream.Change)
  | notify (e : Event)
  /-- A pass, with fuel for so many components. -/
  | render (fuel : Nat)
  | close

/-- What a view answers to a command. -/
inductive Answer where
  | done
  | refused (e : Error)
  /-- The handle of the component. -/
  | component (result : Except Error Handle)
  /-- What came of a pass, and the page after it. -/
  | rendered (result : Except Error Outcome) (page : Option String)
  /-- The components that were in a view that is closed. -/
  | closed (gone : List Handle)

/-- What a view answers to a command, and its state afterwards. -/
def exec (v : View) : Command → Option (Answer × View)
  | .write w => some (.done, v.writeAssigns (·.write w))
  | .mount id kind props =>
    let (result, v) := v.mount id kind props
    some (.component result, v)
  | .unmount id =>
    let (result, v) := v.unmount id
    some (.component result, v)
  | .deliver id props =>
    let (result, v) := v.deliver id props
    some (.component result, v)
  | .keyStream name keyOf => some (.done, v.keyStream name keyOf)
  | .changeStream name c =>
    match v.changeStream name c with
    | .ok v => some (.done, v)
    | .error e => some (.refused e, v)
  | .notify e => some (.done, v.notify e)
  | .render fuel => (v.render fuel).map fun (result, v) => (.rendered result v.html, v)
  | .close =>
    let (gone, v) := v.close
    some (.closed gone, v)

/-- All that a command can do to a view that answers it. -/
inductive Effect (v : View) : Command → Answer → View → Prop where
  | write (w : Assigns.Write) : Effect v (.write w) .done (v.writeAssigns (·.write w))
  | mount (id : String) (kind : KindRef) (props : Fields) (unsent : Concerns) :
      Effect v (.mount id kind props)
        (.component ((v.roster.refer v.host.kinds id kind props none).1.map Prod.fst))
        { v with roster := (v.roster.refer v.host.kinds id kind props none).2, unsent }
  | unmount (id : String) (unsent : Concerns) :
      Effect v (.unmount id) (.component (v.roster.unmount id).1)
        { v with roster := (v.roster.unmount id).2, unsent }
  | deliver (id : String) (props : Fields) (unsent : Concerns) :
      Effect v (.deliver id props) (.component (v.roster.deliver v.host.kinds id props).1)
        { v with roster := (v.roster.deliver v.host.kinds id props).2, unsent }
  | keyStream (name : String) (keyOf : Value → Value) :
      Effect v (.keyStream name keyOf) .done (v.keyStream name keyOf)
  | changeStream {name : String} {c : Stream.Change} {streams : Streams} (unsent : Concerns) :
      v.streams.change name c = .ok streams →
      Effect v (.changeStream name c) .done { v with streams, unsent }
  | refuse {name : String} {c : Stream.Change} {e : Error} : v.streams.change name c = .error e →
      Effect v (.changeStream name c) (.refused e) v
  | notify (e : Event) : Effect v (.notify e) .done (v.notify e)
  | render {fuel : Nat} {result : Except Error Outcome} {w : View} :
      v.render fuel = some (result, w) → Effect v (.render fuel) (.rendered result w.html) w
  | close : Effect v .close (.closed v.close.1) v.close.2

theorem withRoster_eq {α : Type} (v : View) (x : Except Error α × Roster) :
    ∃ unsent, v.withRoster x = (x.1, { v with roster := x.2, unsent }) := by
  obtain ⟨_ | _, r⟩ := x
  · exact ⟨v.unsent, rfl⟩
  · exact ⟨{ v.unsent with components := true }, rfl⟩

theorem effect_of_exec {v w : View} {cmd : Command} {answer : Answer}
    (h : v.exec cmd = some (answer, w)) : Effect v cmd answer w := by
  -- a command that concerns components hands back what the roster made of it
  have hroster {x : Except Error Handle × Roster}
      (hin : some (Answer.component (v.withRoster x).1, (v.withRoster x).2) = some (answer, w)) :
      ∃ unsent, answer = .component x.1 ∧ w = { v with roster := x.2, unsent } := by
    obtain ⟨unsent, heq⟩ := withRoster_eq v x
    rw [heq] at hin
    obtain ⟨rfl, rfl⟩ := Prod.mk.inj (Option.some.inj hin)
    exact ⟨unsent, rfl, rfl⟩
  cases cmd with
  | write w =>
      obtain ⟨rfl, rfl⟩ := Prod.mk.inj (Option.some.inj h)
      exact .write w
  | mount id kind props =>
      obtain ⟨unsent, rfl, rfl⟩ := hroster h
      exact .mount id kind props unsent
  | unmount id =>
      obtain ⟨unsent, rfl, rfl⟩ := hroster h
      exact .unmount id unsent
  | deliver id props =>
      obtain ⟨unsent, rfl, rfl⟩ := hroster h
      exact .deliver id props unsent
  | keyStream name keyOf =>
      obtain ⟨rfl, rfl⟩ := Prod.mk.inj (Option.some.inj h)
      exact .keyStream name keyOf
  | changeStream name c =>
      simp only [exec, changeStream] at h
      cases hc : v.streams.change name c with
      | error e =>
          simp only [hc, Except.map] at h
          obtain ⟨rfl, rfl⟩ := Prod.mk.inj (Option.some.inj h)
          exact .refuse hc
      | ok streams =>
          simp only [hc, Except.map] at h
          obtain ⟨rfl, rfl⟩ := Prod.mk.inj (Option.some.inj h)
          exact .changeStream _ hc
  | notify e =>
      obtain ⟨rfl, rfl⟩ := Prod.mk.inj (Option.some.inj h)
      exact .notify e
  | render fuel =>
      obtain ⟨⟨result, w⟩, hr, heq⟩ := Option.map_eq_some_iff.mp h
      obtain ⟨rfl, rfl⟩ := Prod.mk.inj heq
      exact .render hr
  | close =>
      obtain ⟨rfl, rfl⟩ := Prod.mk.inj (Option.some.inj h)
      exact .close

/-- No command changes the host. -/
theorem host_exec {v w : View} {cmd : Command} {answer : Answer}
    (hx : v.exec cmd = some (answer, w)) : w.host = v.host := by
  cases effect_of_exec hx with
  | render hr =>
      rcases render_cases hr with ⟨e, p, -, -, rfl⟩ | ⟨done, p, -, -, rfl⟩
      · rfl
      · rfl
  | _ => rfl

/-- No command changes the template. -/
theorem root_exec {v w : View} {cmd : Command} {answer : Answer}
    (hx : v.exec cmd = some (answer, w)) : w.root = v.root := by
  cases effect_of_exec hx with
  | render hr =>
      rcases render_cases hr with ⟨e, p, -, -, rfl⟩ | ⟨done, p, -, -, rfl⟩
      · rfl
      · rfl
  | _ => rfl

/-- What a view answers to commands, and its state afterwards. -/
def run (v : View) : List Command → Option (List Answer × View)
  | [] => some ([], v)
  | cmd :: cmds =>
    match v.exec cmd with
    | none => none
    | some (answer, v) => (v.run cmds).map fun (answers, v) => (answer :: answers, v)

/-- The states of a view of a template after some commands. -/
inductive Reachable (host : Host) (root : Template) : View → Prop where
  | start : Reachable host root (ofTemplate host root)
  | step {v v' : View} {cmd : Command} {answer : Answer} :
      Reachable host root v → v.exec cmd = some (answer, v') → Reachable host root v'

theorem run_cons {v v' : View} {cmd : Command} {cmds : List Command} {answers : List Answer}
    (h : v.run (cmd :: cmds) = some (answers, v')) :
    ∃ answer rest w, v.exec cmd = some (answer, w) ∧ w.run cmds = some (rest, v') ∧
      answers = answer :: rest := by
  unfold run at h
  split at h
  · exact absurd h (by simp)
  · next answer w hexec =>
      obtain ⟨⟨rest, v''⟩, hrun, heq⟩ := Option.map_eq_some_iff.mp h
      simp only [Prod.mk.injEq] at heq
      obtain ⟨rfl, rfl⟩ := heq
      exact ⟨answer, rest, w, hexec, hrun, rfl⟩

/-- The answers of a run are those to its commands, one after the other. -/
theorem answers_cons {v w : View} {cmd : Command} {answer : Answer}
    (h : v.exec cmd = some (answer, w)) (cmds : List Command) :
    (v.run (cmd :: cmds)).map Prod.fst = ((w.run cmds).map Prod.fst).map (answer :: ·) := by
  simp only [run, h, Option.map_map]
  rfl

/-- The states of a run are reachable. -/
theorem Reachable.run {host : Host} {root : Template} {v v' : View} {cmds : List Command}
    {answers : List Answer} (h : Reachable host root v) (hrun : v.run cmds = some (answers, v')) :
    Reachable host root v' := by
  induction cmds generalizing v answers with
  | nil =>
      obtain ⟨-, rfl⟩ := Prod.mk.inj (Option.some.inj hrun)
      exact h
  | cons cmd cmds ih =>
      obtain ⟨answer, rest, w, hexec, hrest, -⟩ := run_cons hrun
      exact ih (h.step hexec) hrest

/-- An invariant of the commands holds of every state. -/
theorem Reachable.invariant {host : Host} {root : Template} {P : View → Prop}
    (hstart : P (ofTemplate host root))
    (hstep : ∀ v v' cmd answer, P v → v.exec cmd = some (answer, v') → P v') {v : View}
    (h : Reachable host root v) : P v := by
  induction h with
  | start => exact hstart
  | step _ hexec ih => exact hstep _ _ _ _ ih hexec

theorem Reachable.host_eq {host : Host} {root : Template} {v : View}
    (h : Reachable host root v) : v.host = host :=
  h.invariant (P := fun v => v.host = host) rfl fun _ _ _ _ hv hexec => (host_exec hexec).trans hv

theorem Reachable.root_eq {host : Host} {root : Template} {v : View}
    (h : Reachable host root v) : v.root = root :=
  h.invariant (P := fun v => v.root = root) rfl fun _ _ _ _ hv hexec => (root_exec hexec).trans hv

end View

end ViewSync
