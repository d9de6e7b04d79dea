import ViewSync.Proofs.Roster.Faithful
import ViewSync.Proofs.Stream.Items
import ViewSync.Proofs.View.FailedRender

/-!
# Change tracking is not observable

Two views of one template, one with change tracking and one without, go through the same states and
give the same answers. What makes them do so is an invariant of these states: the tree that was
sent last is current at assigns from which those of the view came by writes that are recorded, and
the same goes for every component.
-/

namespace ViewSync.View

open Roster

/-- No template of a view reads more than it says, and no negative zero comes from the host. -/
structure Trackable (host : Host) (root : Template) : Prop where
  /-- The callbacks of the root read no more than it says. -/
  reads : root.ReadsOnly []
  /-- No negative zero comes from them. -/
  makes : root.Makes Value.Plain
  /-- The same is so of every kind. -/
  kinds : ∀ key, (host.kinds key).Tracked

theorem Trackable.tracking {host : Host} {root : Template} (h : Trackable host root) (on : Bool) :
    Trackable (host.tracking on) root :=
  ⟨h.reads, h.makes, h.kinds⟩

/-- No negative zero comes in with a command. -/
def Command.Plain : Command → Prop
  | .write w => w.Makes Value.Plain
  | .mount _ _ props => ∀ f ∈ props, f.2.Plain
  | .deliver _ props => ∀ f ∈ props, f.2.Plain
  | .changeStream _ c => c.Brings Value.Plain
  | _ => True

/-- A view with change tracking on or off. -/
def tracking (v : View) (on : Bool) : View := { v with host := v.host.tracking on }

@[simp] theorem tracking_host (v : View) (on : Bool) :
    (v.tracking on).host = v.host.tracking on := rfl

@[simp] theorem tracking_root (v : View) (on : Bool) : (v.tracking on).root = v.root := rfl

@[simp] theorem tracking_assigns (v : View) (on : Bool) :
    (v.tracking on).assigns = v.assigns := rfl

@[simp] theorem tracking_roster (v : View) (on : Bool) : (v.tracking on).roster = v.roster := rfl

@[simp] theorem tracking_streams (v : View) (on : Bool) :
    (v.tracking on).streams = v.streams := rfl

@[simp] theorem tracking_sent (v : View) (on : Bool) : (v.tracking on).sent = v.sent := rfl

/-- What the tree that was sent, the records and the queues of a view are worth. -/
structure Faithful (v : View) : Prop where
  /-- No template reads more than it says. -/
  trackable : Trackable v.host v.root
  /-- No pass is under way. -/
  resting : v.roster.Resting
  /-- The page is what the root came to when it was rendered, and the record of writes tells what
  was changed since. -/
  sent : ∃ base, Assigns.Since base v.assigns ∧ ∀ tree, v.sent = some tree →
    v.root.Current v.host.config.escapeHtml (Scope.ofAssigns base) tree
  /-- The same is so of every component. -/
  records : v.roster.Faithful v.host
  /-- No item that waits has a negative zero in it. -/
  waiting : v.streams.Wait Value.Plain

theorem faithful_start {host : Host} {root : Template} (h : Trackable host root) :
    Faithful (ofTemplate host root) where
  trackable := h
  resting := resting_ofConfig host.config
  sent := ⟨Assigns.empty, Assigns.Since.empty, fun _ h => by cases h⟩
  records k c hc := by
    simp [ofTemplate, ofConfig, get?] at hc
  waiting := List.forall_mem_nil _

namespace Faithful

variable {v : View}

/-! ## A pass -/

theorem offers (hv : v.Faithful) : v.opened.Offers Value.Plain := by
  intro name f hf
  have hmem := Keyed.mem_of_mem_ofList (Keyed.mem_of_get? hf)
  obtain ⟨e, he, heq⟩ := List.mem_map.mp hmem
  obtain ⟨rfl, rfl⟩ := Prod.mk.inj heq
  exact hv.waiting.plans e he

/-- Rendering the root, and what is true of the pass after it. -/
theorem root (hv : v.Faithful) :
    Pass.template (v.host.tracking true) (Scope.ofAssigns v.assigns) v.root v.sent =
      Pass.template (v.host.tracking false) (Scope.ofAssigns v.assigns) v.root v.sent ∧
    let after := (Pass.template (v.host.tracking false) (Scope.ofAssigns v.assigns) v.root
      v.sent).run v.opened
    after.2.Offers Value.Plain ∧ after.2.roster.Arena ∧ after.2.roster.Faithful v.host ∧
      ∀ tree, after.1 = .ok tree →
        v.root.Current v.host.config.escapeHtml (Scope.ofAssigns v.assigns) tree := by
  obtain ⟨base, hsince, hcurrent⟩ := hv.sent
  refine ⟨Pass.template_tracking hsince hv.trackable.reads hcurrent, ?_⟩
  -- opening a pass only starts its undo record
  have hopen : v.roster.openPass.Arena := hv.resting.arena.congr rfl rfl rfl rfl rfl
  have hyields := Pass.yields_template ((Faithful.steady hv.trackable.kinds).closed none [])
    (s := Scope.ofAssigns v.assigns) ⟨List.forall_mem_nil _, hsince.plain⟩ hv.trackable.makes
    v.sent v.opened ⟨hv.offers, hopen, hv.records⟩
  obtain ⟨hoffers, harena, hrecords⟩ := hyields.1
  refine ⟨hoffers, harena, hrecords, ?_⟩
  exact (Pass.current_template v.host (Scope.ofAssigns v.assigns) v.root v.sent _ trivial).2

/-- A pass goes the same way with change tracking and without. -/
theorem renderAll_tracking (hv : v.Faithful) (fuel : Nat) :
    (v.tracking true).renderAll fuel v.opened = (v.tracking false).renderAll fuel v.opened := by
  obtain ⟨hsame, hoffers, harena, hrecords, -⟩ := hv.root
  unfold renderAll
  simp only [tracking_host, tracking_root, tracking_assigns, tracking_sent, hsame]
  generalize (Pass.template _ _ _ _).run _ = after at hoffers harena hrecords ⊢
  obtain ⟨result, p⟩ := after
  cases result with
  | error e => rfl
  | ok root =>
      have hqueue := renderQueue_tracking fuel hv.trackable.kinds hoffers harena hrecords
      dsimp only at hqueue ⊢
      rw [hqueue]

/-- What a pass has rendered is current. -/
theorem renderAll (hv : v.Faithful) {fuel : Nat} {done : Rendering} {p : Pass}
    (h : (v.tracking false).renderAll fuel v.opened = some (.ok done, p)) :
    p.roster.Faithful v.host ∧
      v.root.Current v.host.config.escapeHtml (Scope.ofAssigns v.assigns) done.root := by
  obtain ⟨-, hoffers, harena, hrecords, hcurrent⟩ := hv.root
  obtain ⟨root, p₁, hrun, hqueue, hdone, -⟩ := renderAll_ok h
  rw [tracking_host, tracking_assigns, tracking_root, tracking_sent] at hrun
  rw [hrun] at hoffers harena hrecords hcurrent
  refine ⟨Roster.Faithful.renderQueue hv.trackable.kinds hoffers harena hrecords hqueue, ?_⟩
  rw [hdone]
  exact (hcurrent root rfl).blank _

theorem render_tracking (hv : v.Faithful) (fuel : Nat) :
    (v.tracking true).render fuel =
      ((v.tracking false).render fuel).map fun (result, w) => (result, w.tracking true) := by
  have hall := hv.renderAll_tracking fuel
  unfold View.render
  dsimp only [opened, tracking_roster, tracking_streams] at hall ⊢
  rw [hall]
  cases (v.tracking false).renderAll fuel _ with
  | none => rfl
  | some after =>
      obtain ⟨_ | done, p⟩ := after
      · rfl
      · rfl

/-- A pass that goes well leaves the view faithful. -/
theorem render (hv : v.Faithful) {fuel : Nat} {outcome : Outcome} {w : View}
    (hr : (v.tracking false).render fuel = some (.ok outcome, w)) : w.Faithful := by
  have hrest : w.roster.Resting := resting_render (v := v.tracking false) hv.resting hr
  obtain ⟨done, p, hall, -, rfl⟩ := render_ok hr
  obtain ⟨hrecords, hroot⟩ := hv.renderAll hall
  have harena : p.roster.Arena := arena_renderAll (v := v.tracking false) hv.resting hall
  obtain ⟨base, hsince, -⟩ := hv.sent
  -- the assigns that were rendered are the new base, and the record starts afresh
  refine ⟨hv.trackable.tracking false, hrest, ⟨v.assigns, hsince.settled, ?_⟩, ?_,
    hv.waiting.adopt _⟩
  · rintro _ ⟨⟩
    exact hroot
  · exact hrecords.reclaim_tell (retires_closePass p.roster _) (harena.closePass _).arena

/-! ## Commands -/

theorem tracking (hv : v.Faithful) (on : Bool) : (v.tracking on).Faithful :=
  ⟨hv.trackable.tracking on, hv.resting, hv.sent, hv.records, hv.waiting⟩

theorem write (hv : v.Faithful) {w : Assigns.Write} (hw : w.Makes Value.Plain) :
    (v.writeAssigns (·.write w)).Faithful := by
  obtain ⟨base, hsince, hcurrent⟩ := hv.sent
  exact ⟨hv.trackable, hv.resting, ⟨base, hsince.write hw, hcurrent⟩, hv.records, hv.waiting⟩

/-- Commands leave a view without change tracking faithful. -/
theorem exec (hv : v.Faithful) {cmd : Command} (hcmd : cmd.Plain) {answer : Answer} {w : View}
    (hx : (v.tracking false).exec cmd = some (answer, w)) : w.Faithful := by
  have hu := hv.tracking false
  have harena := hv.resting.arena
  -- only a write concerns the assigns, and only a pass or the end the tree that was sent
  have withRoster {r : Roster} (hrest : r.Resting) (hrecords : r.Faithful v.host)
      (unsent : Concerns) : Faithful { v.tracking false with roster := r, unsent } :=
    ⟨hu.trackable, hrest, hu.sent, hrecords, hu.waiting⟩
  cases effect_of_exec hx with
  | write write => exact hu.write hcmd
  | mount id kind props unsent =>
      have hedit : Edit v.host.kinds Value.Plain v.roster
          (v.roster.refer v.host.kinds id kind props none).2 :=
        edit_refer v.roster id kind none hcmd
      have hrest := hv.resting.refer v.host.kinds id kind props none
      exact withRoster hrest (hv.records.edit hv.trackable.kinds harena hedit) unsent
  | unmount id unsent =>
      have hrecords := hv.records.retires (retires_unmount v.roster id)
      exact withRoster (hv.resting.unmount id) hrecords unsent
  | deliver id props unsent =>
      have hedit : Edit v.host.kinds Value.Plain v.roster
          (v.roster.deliver v.host.kinds id props).2 := edit_deliver hv.resting.undo id hcmd
      have hrest := hv.resting.deliver v.host.kinds id props
      exact withRoster hrest (hv.records.edit hv.trackable.kinds harena hedit) unsent
  | keyStream name keyOf =>
      exact ⟨hu.trackable, hu.resting, hu.sent, hu.records, hu.waiting.keyBy name keyOf⟩
  | changeStream unsent hc =>
      exact ⟨hu.trackable, hu.resting, hu.sent, hu.records, hu.waiting.change hcmd hc⟩
  | refuse hc => exact hu
  | notify e => exact ⟨hu.trackable, hu.resting, hu.sent, hu.records, hu.waiting⟩
  | @render fuel result _ hr =>
      cases result with
      | error e =>
          -- a pass that fails leaves the view as it was
          rw [render_error (v := v.tracking false) hv.resting hr]
          exact hu
      | ok outcome => exact hv.render hr
  | close =>
      obtain ⟨base, hsince, -⟩ := hv.sent
      have hrest := hv.resting.unmountEach
      have hretires := retires_unmountEach v.roster
      exact ⟨hu.trackable, hrest.reclaim_tell, ⟨base, hsince, fun _ h => by cases h⟩,
        hv.records.reclaim_tell hretires hrest.arena, List.forall_mem_nil _⟩

theorem exec_tracking (hv : v.Faithful) (cmd : Command) :
    (v.tracking true).exec cmd =
      ((v.tracking false).exec cmd).map fun (answer, w) => (answer, w.tracking true) := by
  -- what a roster answers does not depend on tracking, and neither does what a view makes of it
  have hroster {α : Type} (x : Except Error α × Roster) :
      (v.tracking true).withRoster x =
        (((v.tracking false).withRoster x).1,
          ((v.tracking false).withRoster x).2.tracking true) := by
    obtain ⟨_ | _, r⟩ := x <;> rfl
  have hcomponent {x y : Except Error Handle × View} (h : x = (y.1, y.2.tracking true)) :
      some (Answer.component x.1, x.2) =
        (some (Answer.component y.1, y.2)).map fun (answer, w) => (answer, w.tracking true) := by
    rw [h]
    rfl
  cases cmd with
  | write w => rfl
  | mount id kind props => exact hcomponent (hroster _)
  | unmount id => exact hcomponent (hroster _)
  | deliver id props => exact hcomponent (hroster _)
  | keyStream name keyOf => rfl
  | changeStream name c =>
      simp only [View.exec, changeStream, tracking_streams]
      cases v.streams.change name c with
      | error e => rfl
      | ok streams => rfl
  | notify e => rfl
  | render fuel =>
      simp only [View.exec]
      rw [hv.render_tracking fuel, Option.map_map, Option.map_map]
      rfl
  | close => rfl

/-- Runs from a faithful view give the same answers. -/
theorem run_tracking (hv : v.Faithful) {cmds : List Command} (hcmds : ∀ cmd ∈ cmds, cmd.Plain) :
    ((v.tracking true).run cmds).map Prod.fst = ((v.tracking false).run cmds).map Prod.fst := by
  induction cmds generalizing v with
  | nil => rfl
  | cons cmd cmds ih =>
      have hon := hv.exec_tracking cmd
      cases hx : (v.tracking false).exec cmd with
      | none =>
          rw [hx] at hon
          simp only [run, hx, hon]
          rfl
      | some x =>
          obtain ⟨answer, w⟩ := x
          rw [hx] at hon
          -- both go on from the same state, tracking apart
          have hoff : w.tracking false = w := by
            have hhost : w.host = v.host.tracking false := host_exec hx
            obtain ⟨⟩ := w
            obtain rfl := hhost
            rfl
          have hw := hv.exec (hcmds cmd List.mem_cons_self) hx
          have hrest := ih hw fun c hc => hcmds c (List.mem_cons_of_mem _ hc)
          rw [hoff] at hrest
          rw [answers_cons hon, answers_cons hx, hrest]

end Faithful

/-- **Change tracking is not observable.** A view with change tracking answers any run of commands
as a view without it does. -/
theorem answers_tracking {host : Host} {root : Template} {cmds : List Command}
    (h : Trackable host root) (hcmds : ∀ cmd ∈ cmds, cmd.Plain) :
    ((ofTemplate (host.tracking true) root).run cmds).map Prod.fst =
      ((ofTemplate (host.tracking false) root).run cmds).map Prod.fst :=
  (faithful_start h).run_tracking hcmds

/-- The items of a list that can be read are such values. -/
theorem plain_list {s : Scope} (hs : s.All Value.Plain) {name : String} {values : List Value}
    (h : s.list name = .ok values) : ∀ v ∈ values, v.Plain := by
  unfold Scope.list at h
  obtain ⟨v, hv, h⟩ := bind_ok h
  have hplain := hs.get hv
  split at h
  · obtain rfl := Except.ok.inj h
    exact Value.plainItems_iff.mp hplain
  · obtain rfl := Except.ok.inj h
    exact List.forall_mem_nil _
  · cases h

/-- The name of a user, a label that is a component, and a list of books. -/
def shelf : Template :=
  .hole "<h1>" (.value (.paths [⟨"user", ["name"]⟩]) fun s => s.value ⟨"user", ["name"]⟩)
    (.hole "</h1>" (.component ⟨"label", "label"⟩ (fun _ => .ok "label") fun s =>
      (s.get "title").map fun v => [("title", v)])
      (.hole "<ul>" (.loop (.paths [⟨"books", []⟩]) (fun s => s.list "books") "book"
        (.hole "<li>" (.value (.paths [⟨"book", []⟩]) fun s => s.value ⟨"book", []⟩)
          (.text "</li>"))) (.text "</ul>")))

/-- A label shows its title. -/
def shelfHost : Host :=
  ⟨fun _ => Kind.ofTemplate (.hole "<b>" (.value (.paths [⟨"title", []⟩]) fun s =>
    s.value ⟨"title", []⟩) (.text "</b>")), {}⟩

/-- The user and the title change, and the books do not. -/
def shelfRun : List Command :=
  [.write (.set "user" (.obj [("name", .str "Ada")])), .write (.set "title" (.str "old")),
    .render 5, .write (.set "books" (.arr [.str "Emma", .str "Lear"])), .render 5,
    .write (.set "user" (.obj [("age", .str "36"), ("name", .str "Ada")])),
    .write (.set "title" (.str "new")), .render 5]

theorem trackable_shelf : Trackable shelfHost shelf where
  reads := by
    refine ⟨?_, trivial, ⟨?_, ?_, trivial⟩, trivial⟩
    · exact fun s s' _ h => h.value (List.mem_singleton.mpr rfl)
    · exact fun s s' _ h => h.list (List.mem_singleton.mpr rfl)
    · exact fun s s' _ h => h.value (List.mem_singleton.mpr rfl)
  makes := by
    refine ⟨trivial, ?_, ⟨?_, trivial, trivial⟩, trivial⟩
    · intro s fields hs hfields
      cases hv : s.get "title" with
      | error e =>
          simp only [hv] at hfields
          cases hfields
      | ok v =>
          simp only [hv] at hfields
          obtain rfl := Except.ok.inj hfields
          exact List.forall_mem_singleton.mpr (hs.get hv)
    · exact fun s values hs h => plain_list hs h
  kinds _ := by
    refine Kind.tracked_ofTemplate ⟨?_, trivial⟩ ⟨trivial, trivial⟩
    exact fun s s' _ h => h.value (List.mem_singleton.mpr rfl)

theorem shelf_answers_tracking :
    ((ofTemplate (shelfHost.tracking true) shelf).run shelfRun).isSome = true ∧
      ((ofTemplate (shelfHost.tracking true) shelf).run shelfRun).map Prod.fst =
        ((ofTemplate (shelfHost.tracking false) shelf).run shelfRun).map Prod.fst := by
  refine ⟨by decide +kernel, answers_tracking trackable_shelf ?_⟩
  simp [shelfRun, Command.Plain, Assigns.Write.Makes, Value.Plain, Value.PlainFields,
    Value.PlainItems]

end ViewSync.View
