import ViewSync.Proofs.Roster.Built
import ViewSync.Proofs.View.FailedRender

/-!
# Every tree is one that its template is rendered to

The tree that was sent last and the trees of components are put together from what a pass fills in
anew and what it keeps of trees before, perhaps trees of another template of the same shape, and
have components blanked in them afterwards. All the same, each of them is one that its template is
rendered to, at every depth and after any run. So the failure that is fatal, a tree that does not
fit, does not come up in a pass. A render that fails with it has it from a callback of the host.
-/

namespace ViewSync

namespace View

open Roster

variable {v w : View} {had : String → Stream.Flush → Prop} {E : Error → Prop} {fuel : Nat}

/-- What a stream of a view of a template may have for the client when a pass begins. -/
def MayHave (host : Host) (root : Template) (name : String) (f : Stream.Flush) : Prop :=
  ∃ v, Reachable host root v ∧ v.opened.flushes.get? name = some f

/-- A callback of the host fails with an error, at some scope, whether a view comes by there or
not. -/
def Raises (host : Host) (root : Template) (e : Error) : Prop :=
  ¬(root.FailsIn (· ≠ e) ∧ ∀ key, (host.kinds key).FailsIn (· ≠ e))

/-- All trees of a view are such as their templates are rendered to. -/
structure Built (had : String → Stream.Flush → Prop) (v : View) : Prop where
  /-- No pass is under way. -/
  resting : v.roster.Resting
  /-- The page is such a tree of the root. -/
  sent : ∀ tree, v.sent = some tree → tree.Built v.host had v.root
  /-- The tree of a component is one of its template. -/
  components : v.roster.Every (Component.Built v.host had)

theorem built_start (host : Host) (root : Template) : (ofTemplate host root).Built had where
  resting := resting_ofConfig host.config
  sent _ ht := by cases ht
  components h c hc := by simp [ofTemplate, ofConfig, get?] at hc

namespace Built

/-! ## A pass -/

/-- **A pass builds trees from trees that were built**, notes nothing that is fatal, and fails with
what a callback brought up. -/
theorem renderAll (hv : v.Built had) (hopened : v.opened.Fair had)
    (hmild : ∀ e : Error, e.isFatal = false → E e) (hroot : v.root.FailsIn E)
    (hkinds : ∀ key, (v.host.kinds key).FailsIn E) {p : Pass} {result : Except Error Rendering}
    (h : v.renderAll fuel v.opened = some (result, p)) :
    Sound v.host had p [] ∧ (∀ done, result = .ok done → done.root.Built v.host had v.root) ∧
      ∀ e, result = .error e → E e := by
  have hfits : ∀ b, v.sent = some b → b.Fits := fun b hb => (hv.sent b hb).fits
  have hstart : Sound v.host had v.opened [] := ⟨hopened, hv.components, List.forall_mem_nil _⟩
  obtain ⟨hsound, hbuilt, hfails⟩ :=
    hstart.template hmild hkinds (Scope.ofAssigns v.assigns) hroot hfits
  unfold View.renderAll at h
  split at h
  · next e p₁ hrun =>
      obtain ⟨rfl, rfl⟩ := Prod.mk.inj (Option.some.inj h)
      rw [hrun] at hsound hfails
      exact ⟨hsound, nofun, fun e' he' => hfails e' (congrArg Except.error (Except.error.inj he'))⟩
  · next root p₁ hrun =>
      rw [hrun] at hsound hbuilt
      split at h
      · cases h
      · next e p₂ hqueue =>
          obtain ⟨rfl, rfl⟩ := Prod.mk.inj (Option.some.inj h)
          obtain ⟨hafter, hqueued⟩ := hsound.renderQueue hmild hkinds hqueue
          exact ⟨hafter, nofun,
            fun e' he' => hqueued e' (congrArg Except.error (Except.error.inj he'))⟩
      · next components p₂ hqueue =>
          obtain ⟨hresult, rfl⟩ := Prod.mk.inj (Option.some.inj h)
          obtain ⟨hafter, -⟩ := hsound.renderQueue hmild hkinds hqueue
          -- the root fits before and after, so that it can be compared
          have hblank := (hbuilt root rfl).blank p₂.roster.stillborn
          obtain ⟨patch, hpatch⟩ := Tree.exists_patchFrom .nowhere hfits hblank.fits
          rw [blankStillborn, hpatch] at hresult
          refine ⟨hafter, fun done hdone => ?_, fun e he => ?_⟩
          · obtain rfl := Except.ok.inj (hresult.trans hdone)
            exact hblank
          · cases hresult.trans he

/-- What a render answers. -/
theorem render (hv : v.Built had) (hopened : v.opened.Fair had)
    (hmild : ∀ e : Error, e.isFatal = false → E e) (hroot : v.root.FailsIn E)
    (hkinds : ∀ key, (v.host.kinds key).FailsIn E) {result : Except Error Outcome}
    (hr : v.render fuel = some (result, w)) :
    (∀ outcome, result = .ok outcome → ∀ e ∈ outcome.errors, e.isFatal = false) ∧
      ∀ e, result = .error e → E e := by
  rcases render_cases hr with ⟨e, p, hall, rfl, -⟩ | ⟨done, p, hall, rfl, -⟩
  · refine ⟨nofun, fun e' he' => ?_⟩
    obtain rfl := Except.error.inj he'
    exact (hv.renderAll hopened hmild hroot hkinds hall).2.2 _ rfl
  · refine ⟨fun outcome ho => ?_, nofun⟩
    obtain rfl := Except.ok.inj ho
    exact (hv.renderAll hopened hmild hroot hkinds hall).1.fair.errors

/-! ## Commands -/

/-- A view between passes with another roster. -/
theorem withRoster (hv : v.Built had) {r : Roster} (hrest : r.Resting)
    (hr : r.Every (Component.Built v.host had)) (unsent : Concerns) :
    Built had { v with roster := r, unsent } :=
  ⟨hrest, hv.sent, hr⟩

/-- A render leaves trees that it has built. -/
theorem rendered (hv : v.Built had) (hopened : v.opened.Fair had) {outcome : Outcome}
    (hr : v.render fuel = some (.ok outcome, w)) : w.Built had := by
  have hrest := resting_render hv.resting hr
  obtain ⟨done, p, hall, -, rfl⟩ := render_ok hr
  obtain ⟨hsound, hroot, -⟩ := hv.renderAll (E := fun _ => True) hopened (fun _ _ => trivial)
    v.root.failsIn_true (fun key => (v.host.kinds key).failsIn_true) hall
  have harena := arena_renderAll hv.resting hall
  refine ⟨hrest, fun tree htree => ?_, ?_⟩
  · obtain rfl := Option.some.inj htree
    exact hroot done rfl
  · unfold View.settle
    dsimp only
    generalize (v.streams.adopt _).holds = holds
    exact hsound.built.told (retires_closePass p.roster holds) (harena.closePass holds).arena

/-- **Every command leaves trees that were built.** -/
theorem exec (hv : v.Built had) (hopened : v.opened.Fair had) {cmd : Command} {answer : Answer}
    (hx : v.exec cmd = some (answer, w)) : w.Built had := by
  cases effect_of_exec hx with
  | write w => exact ⟨hv.resting, hv.sent, hv.components⟩
  | mount id kind props unsent =>
      refine hv.withRoster (hv.resting.refer v.host.kinds id kind props none) ?_ unsent
      exact hv.components.refer lasting_built (built_new kind) id props none
  | unmount id unsent =>
      exact hv.withRoster (hv.resting.unmount id)
        ((retires_unmount v.roster id).built hv.components) unsent
  | deliver id props unsent =>
      exact hv.withRoster (hv.resting.deliver v.host.kinds id props)
        (hv.components.deliver lasting_built v.host.kinds id props) unsent
  | keyStream name keyOf => exact ⟨hv.resting, hv.sent, hv.components⟩
  | changeStream unsent hc => exact ⟨hv.resting, hv.sent, hv.components⟩
  | refuse hc => exact hv
  | notify e => exact ⟨hv.resting, hv.sent, hv.components⟩
  | @render fuel result _ hr =>
      cases result with
      | error e =>
          rw [render_error hv.resting hr]
          exact hv
      | ok outcome => exact hv.rendered hopened hr
  | close =>
      have hrest := hv.resting.unmountEach
      refine ⟨hrest.reclaim_tell, fun _ ht => (by cases ht), ?_⟩
      exact hv.components.told (retires_unmountEach v.roster) hrest.arena

end Built

/-- A pass starts with what the streams have for the client. -/
theorem fair_opened {host : Host} {root : Template} (hv : Reachable host root v) :
    v.opened.Fair (MayHave host root) :=
  ⟨List.forall_mem_nil _, fun _ _ hf => ⟨v, hv, hf⟩⟩

theorem built_reachable {host : Host} {root : Template} (hv : Reachable host root v) :
    v.Built (MayHave host root) := by
  induction hv with
  | start => exact built_start host root
  | step hreach hexec ih => exact ih.exec (fair_opened hreach) hexec

/-- **Every tree of a view is one that its template is rendered to**, that of the root and those of
all components, after every run. So no render notes a fatal failure, and one that returns a fatal
failure has it from a callback of the host. -/
theorem trees_built {host : Host} {root : Template} (hv : Reachable host root v) :
    (∀ tree, v.sent = some tree → tree.Built host (MayHave host root) root) ∧
      (∀ h c tree, v.roster.get? h = some c → c.tree = some tree →
        ∃ a, tree.Built host (MayHave host root) ((host.kinds c.kind.key).render a)) ∧
      ∀ fuel result w, v.render fuel = some (result, w) →
        (∀ outcome, result = .ok outcome → ∀ e ∈ outcome.errors, e.isFatal = false) ∧
          ∀ e, result = .error e → e.isFatal = true → Raises host root e := by
  have hbuilt := built_reachable hv
  have hopened := fair_opened hv
  obtain rfl := hv.host_eq
  obtain rfl := hv.root_eq
  refine ⟨hbuilt.sent, fun h c tree hc => hbuilt.components h c hc tree, fun fuel result w hr => ?_⟩
  refine ⟨(hbuilt.render (E := fun _ => True) hopened (fun _ _ => trivial) v.root.failsIn_true
    (fun key => (v.host.kinds key).failsIn_true) hr).1, fun e he hfatal hno => ?_⟩
  -- were there no callback that fails with it, a render could not either
  have hmild (e' : Error) (he' : e'.isFatal = false) : e' ≠ e := by
    rintro rfl
    rw [hfatal] at he'
    cases he'
  exact (hbuilt.render (E := (· ≠ e)) hopened hmild hno.1 hno.2 hr).2 e he rfl

/-- The lines of a chat, each with a component for its author. -/
def chatPage : Template :=
  .hole "<ul>" (.stream "lines" "line" (.hole "<li>" (.component ⟨"author", "author"⟩
    (fun s => s.string Pass.keyLocal) fun _ => .ok [("name", .str "Ada")]) (.text "</li>")))
    (.text "</ul>")

def chatHost : Host :=
  ⟨fun _ => Kind.ofTemplate (.hole "<b>" (.value (Reads.ofTexts ["name"]) fun s => s.get "name")
    (.text "</b>")), {}⟩

/-- A chat with two lines, once both are drawn. -/
def chatRun : List Command :=
  [.changeStream "lines" (.append (.obj [("id", .str "1")])),
    .changeStream "lines" (.append (.obj [("id", .str "2")])), .render 2]

/-- The lines and their authors are built, in the order of the lines. -/
theorem chat_built :
    ∃ (v : View) (tree : Tree) (c : Component) (t : Tree) (outcome : Outcome) (w : View),
      v.sent = some tree ∧
      tree.edits.map (fun edits => edits.inserts.map (·.key)) = [["lines-1", "lines-2"]] ∧
      tree.Built chatHost (MayHave chatHost chatPage) chatPage ∧
      v.roster.get? 1 = some c ∧ c.tree = some t ∧
      (∃ a, t.Built chatHost (MayHave chatHost chatPage) ((chatHost.kinds c.kind.key).render a)) ∧
      v.render 2 = some (.ok outcome, w) ∧ ∀ e ∈ outcome.errors, e.isFatal = false := by
  have hgood : ((ofTemplate chatHost chatPage).run chatRun).any (fun x =>
      x.2.sent.any (fun tree =>
        tree.edits.map (fun edits => edits.inserts.map (·.key)) = [["lines-1", "lines-2"]]) &&
      ((x.2.roster.get? 1).any (·.tree.isSome) &&
        (x.2.render 2).any (·.1.isOk))) = true := by decide +kernel
  obtain ⟨⟨answers, v⟩, hrun, hv⟩ := (Option.any_eq_true ..).mp hgood
  obtain ⟨hsent, hrest⟩ := Bool.and_eq_true_iff.mp hv
  obtain ⟨hcomponent, hrender⟩ := Bool.and_eq_true_iff.mp hrest
  obtain ⟨tree, htree, hkeys⟩ := (Option.any_eq_true ..).mp hsent
  obtain ⟨c, hc, hsome⟩ := (Option.any_eq_true ..).mp hcomponent
  obtain ⟨t, ht⟩ := Option.isSome_iff_exists.mp hsome
  obtain ⟨⟨_ | outcome, w⟩, hr, hok⟩ := (Option.any_eq_true ..).mp hrender
  · cases hok
  · obtain ⟨hroot, hcomponents, hanswers⟩ := trees_built (Reachable.start.run hrun)
    exact ⟨v, tree, c, t, outcome, w, htree, of_decide_eq_true hkeys, hroot tree htree, hc, ht,
      hcomponents 1 c t hc ht, hr, (hanswers 2 _ w hr).1 outcome rfl⟩

end View

end ViewSync
