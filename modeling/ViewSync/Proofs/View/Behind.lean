import ViewSync.Proofs.Roster.Behind
import ViewSync.Proofs.View.Smooth
import ViewSync.Proofs.View.Undisturbed

/-!
# What passes leave behind

After a pass without failures every live component has a tree, and nothing was written to it since,
unless it was left behind: written to by a command that failed, or rendered in vain by a pass that
had a failure to report, and not queued. Passes without failures do not catch up with such a
component by themselves. It stays as it is until something refers to it, and its ancestors do not if
nothing has changed for them. A run in which nothing fails leaves nothing behind.
-/

namespace ViewSync.View

open Roster

variable {host : Host} {template : Template} {v v' : View} {fuel : Nat} {outcome : Outcome}
variable {k : Handle} {c : Component}

/-- What a pass without failures refers to, in the page and in what it draws. -/
def References (v : View) (fuel : Nat) (page : Tree) (k : Handle) : Prop :=
  k ∈ page.handles ∨ ∃ d ∈ v.drawings fuel, ∃ t, d.result = .ok t ∧ k ∈ t.handles

/-- Everyone keeps up with a pass without failures whom it refers to, and no one else. -/
theorem Account.abreast {S : Shape → Prop} {done : Rendering} {p p₁ p₂ : Pass} {root : Tree}
    {rs : Refs} {fs : List (String × Stream.Flush)} {former : FormerTrees}
    (ha : Account S v fuel done p root rs fs p₁ p₂ former) (herrors : p.errors = [])
    (hrest : v.roster.Resting) (hsent : ∀ t, v.sent = some t → t.Fits) :
    Abreast v.roster (root.handles ++ (v.drawings fuel).flatMap Drawing.handles) p₂.roster := by
  have hready := hrest.arena.ready hrest.stillborn
  have hopen : Abreast v.roster [] v.opened.roster :=
    (Abreast.start hready).congr (hready.congr rfl rfl rfl rfl) rfl rfl
  obtain ⟨acts, hacts, hrecalls⟩ := ha.smooth_root herrors hsent
  have hroot := hopen.course hacts
  rw [List.nil_append, ← hrecalls, ← ha.fits.handles_eq] at hroot
  exact ha.drains.abreast ha.kinds ha.redrawn (hacts.named v.named_opened) hroot
    (ha.errors ▸ herrors)

/-- **A pass without failures leaves behind who was behind before, is not referred to, and does not
have to leave.** -/
theorem behind_render (hv : Reachable host template v)
    (hr : v.render fuel = some (.ok outcome, v')) (herrors : outcome.errors = []) :
    (∀ page, v'.sent = some page → (v'.roster.Behind k c ↔
      v.roster.Behind k c ∧ ¬v.References fuel page k ∧ k ∉ outcome.message.gone)) ∧
    v'.roster.queue = [] ∧
    ∀ k c, v'.roster.get? k = some c → c.retired = false ∧ c.tree ≠ none := by
  have hstanding := standing_reachable hv
  have hrest := hstanding.resting
  obtain ⟨done, p, hall, rfl, rfl⟩ := render_ok hr
  obtain ⟨root, rs, fs, p₁, p₂, former, ha⟩ := hstanding.account hall
  have harena := arena_renderAll hrest hall
  have habreast := ha.abreast herrors hrest hstanding.sent
  have hget := ha.get?_eq (ha.sighted_drained hrest herrors).1
  have hqueue := ha.brought.queue
  refine ⟨fun page hpage => ?_, queue_reclaim_close hqueue, fun k c hc => ?_⟩
  · obtain rfl : page = root :=
      (Option.some.inj hpage).symm.trans (ha.root_clean herrors hrest)
    have hout : k ∉ page.handles ++ (v.drawings fuel).flatMap Drawing.handles ↔
        ¬v.References fuel page k := by
      simp only [References, List.mem_append, List.mem_flatMap, mem_drawing_handles]
    rw [← hout]
    constructor
    · rintro ⟨hc, hlive, hwritten, -⟩
      obtain ⟨hc, -, hgone⟩ := (get?_reclaim_close harena).mp hc
      rcases habreast.fresh k c (hget k ▸ hc) hlive hwritten with hin | ⟨hb, hout⟩
      · rw [ha.drained] at hin
        cases hin
      · exact ⟨hb, hout, hgone⟩
    · rintro ⟨hb, hout, hgone⟩
      obtain ⟨hc, -⟩ := habreast.kept k c hb hout
      refine ⟨(get?_reclaim_close harena).mpr ⟨(hget k).trans hc, hb.live, hgone⟩, hb.live,
        hb.written, ?_⟩
      change k ∉ (p.roster.closePass _).2.tell.2.reclaim.queue
      rw [queue_reclaim_close hqueue]
      exact List.not_mem_nil
  · obtain ⟨hc, hlive, -⟩ := (get?_reclaim_close harena).mp hc
    exact ⟨hlive, ha.brought.drawn k c hc hlive⟩

/-! ## Where components are left behind -/

/-- Whether an answer tells of something that failed. -/
def Answer.isFlawed : Answer → Bool
  | .component (.error _) => true
  | .rendered (.ok outcome) _ => !outcome.errors.isEmpty
  | _ => false

/-- **A command that has no failure to tell of leaves no one behind.** -/
theorem behind_exec {cmd : Command} {answer : Answer} (hv : Reachable host template v)
    (hx : v.exec cmd = some (answer, v')) (hsound : answer.isFlawed = false)
    (hb : v'.roster.Behind k c) : v.roster.Behind k c := by
  have hrest := (standing_reachable hv).resting
  cases effect_of_exec hx with
  | mount id kind props unsent =>
      cases hresult : (v.roster.refer v.host.kinds id kind props none).1 with
      | error e =>
          rw [hresult] at hsound
          cases hsound
      | ok a => exact hb.of_refer (hrest.arena.ready hrest.stillborn) (Prod.ext hresult rfl)
  | unmount id unsent => exact hb.of_retires (retires_unmount v.roster id)
  | deliver id props unsent =>
      cases hresult : (v.roster.deliver v.host.kinds id props).1 with
      | error e =>
          rw [hresult] at hsound
          cases hsound
      | ok h => exact hb.of_deliver (Prod.ext hresult rfl)
  | @render fuel result _ hr =>
      cases result with
      | error e => rwa [render_error hrest hr] at hb
      | ok outcome =>
          have herrors : outcome.errors = [] := by
            simpa [Answer.isFlawed] using hsound
          have hiff := (behind_render (k := k) (c := c) hv hr herrors).1
          obtain ⟨done, p, -, -, rfl⟩ := render_ok hr
          exact ((hiff done.root rfl).mp hb).1
  | close =>
      have hnone := get?_unmountEach hrest k
      cases hnone.symm.trans hb.record
  | _ => exact hb

/-- A run leaves a component behind with one of its commands, and the answer tells of a failure. -/
def LeavesBehind (v : View) (cmds : List Command) (k : Handle) (c : Component) : Prop :=
  ∃ before cmd after answers answer u w, cmds = before ++ cmd :: after ∧
    v.run before = some (answers, u) ∧ u.exec cmd = some (answer, w) ∧ answer.isFlawed = true ∧
    ¬u.roster.Behind k c ∧ w.roster.Behind k c

/-- Whoever is behind after a run, and was not before, was left behind by a command of the run. -/
theorem leavesBehind_of_behind {cmds : List Command} {answers : List Answer}
    (hv : Reachable host template v) (hrun : v.run cmds = some (answers, v'))
    (hstart : ¬v.roster.Behind k c) (hb : v'.roster.Behind k c) : v.LeavesBehind cmds k c := by
  induction cmds generalizing v answers with
  | nil =>
      obtain ⟨-, rfl⟩ := Prod.mk.inj (Option.some.inj hrun)
      exact absurd hb hstart
  | cons cmd cmds ih =>
      obtain ⟨answer, rest, w, hexec, hrest, rfl⟩ := run_cons hrun
      by_cases hw : w.roster.Behind k c
      · refine ⟨[], cmd, cmds, [], answer, v, w, rfl, rfl, hexec, ?_, hstart, hw⟩
        exact eq_true_of_ne_false fun hsound => hstart (behind_exec hv hexec hsound hw)
      · obtain ⟨before, cmd', after, answers', answer', u, w', rfl, hbefore, hleaves⟩ :=
          ih (hv.step hexec) hrest hw
        refine ⟨cmd :: before, cmd', after, answer :: answers', answer', u, w', rfl, ?_, hleaves⟩
        rw [run, hexec]
        exact congrArg (Option.map _) hbefore

/-- In a new view no one is behind. -/
theorem not_behind_ofTemplate (host : Host) (template : Template) :
    ¬(ofTemplate host template).roster.Behind k c := by
  rintro ⟨hc, -⟩
  simp [ofTemplate, ofConfig, get?] at hc

/-- No one is behind after a run in which nothing has failed. -/
theorem not_behind_run {cmds : List Command} {answers : List Answer}
    (hv : Reachable host template v) (hrun : v.run cmds = some (answers, v'))
    (hsound : answers.all (!·.isFlawed) = true) (hstart : ¬v.roster.Behind k c) :
    ¬v'.roster.Behind k c := by
  induction cmds generalizing v answers with
  | nil =>
      obtain ⟨-, rfl⟩ := Prod.mk.inj (Option.some.inj hrun)
      exact hstart
  | cons cmd cmds ih =>
      obtain ⟨answer, rest, w, hexec, hrest, rfl⟩ := run_cons hrun
      rw [List.all_cons, Bool.and_eq_true, Bool.not_eq_true'] at hsound
      exact ih (hv.step hexec) hrest hsound.2 fun hb => hstart (behind_exec hv hexec hsound.1 hb)

/-- **Where nothing has failed, a pass without failures leaves every live component with a tree that
shows its assigns.** -/
theorem settled_of_sound {cmds : List Command} {answers : List Answer}
    (hrun : (ofTemplate host template).run cmds = some (answers, v))
    (hsound : answers.all (!·.isFlawed) = true) (hr : v.render fuel = some (.ok outcome, v'))
    (herrors : outcome.errors = []) (hc : v'.roster.get? k = some c) :
    c.tree ≠ none ∧ c.assigns.anyWritten = false := by
  have hafter : ¬v.roster.Behind k c :=
    not_behind_run .start hrun hsound (not_behind_ofTemplate host template)
  obtain ⟨hiff, hqueue, hrecord⟩ :=
    behind_render (k := k) (c := c) (Reachable.start.run hrun) hr herrors
  obtain ⟨hlive, htree⟩ := hrecord k c hc
  refine ⟨htree, eq_false_of_ne_true fun hwritten => hafter ?_⟩
  obtain ⟨done, p, -, -, rfl⟩ := render_ok hr
  refine ((hiff done.root rfl).mp ⟨hc, hlive, hwritten, ?_⟩).1
  rw [hqueue]
  exact List.not_mem_nil

/-- **Who is behind after a pass without failures.** Every live component has a tree then, and is
as it was when that was rendered unless it is behind. Behind are those who were so before the pass,
to whom nothing in the pass refers, and who do not have to leave. All of them were left behind by
commands of the run that had a failure to tell of. -/
theorem behind_of_written {cmds : List Command} {answers : List Answer}
    (hrun : (ofTemplate host template).run cmds = some (answers, v))
    (hr : v.render fuel = some (.ok outcome, v')) (herrors : outcome.errors = []) :
    (∀ k c, v'.roster.get? k = some c →
      c.tree ≠ none ∧ (c.assigns.anyWritten = true ↔ v'.roster.Behind k c)) ∧
    (∀ page k c, v'.sent = some page → (v'.roster.Behind k c ↔
      v.roster.Behind k c ∧ ¬v.References fuel page k ∧ k ∉ outcome.message.gone)) ∧
    ∀ k c, v.roster.Behind k c → (ofTemplate host template).LeavesBehind cmds k c := by
  have hv := Reachable.start.run hrun
  refine ⟨fun k c hc => ?_, fun page k c hpage => ?_, fun k c hb => ?_⟩
  · obtain ⟨-, hqueue, hlive⟩ := behind_render (k := k) (c := c) hv hr herrors
    obtain ⟨hlive, htree⟩ := hlive k c hc
    refine ⟨htree, fun hwritten => ⟨hc, hlive, hwritten, ?_⟩, Behind.written⟩
    rw [hqueue]
    exact List.not_mem_nil
  · exact (behind_render hv hr herrors).1 page hpage
  · exact leavesBehind_of_behind .start hrun (not_behind_ofTemplate host template) hb

/-- A text that is read each time. -/
def titleItem : Template :=
  .hole "<i>" (.value .anything fun s => s.get "title") (.text "</i>")

/-- A panel around such a text. -/
def titlePanel : Template :=
  .hole "<div>" (.component ⟨"item", "item"⟩ (fun _ => .ok "item")
    fun _ => .ok [("title", .str "old")]) (.text "</div>")

/-- A page with such a panel. -/
def titledPanelPage : Template :=
  .hole "" (.component ⟨"panel", "panel"⟩ (fun _ => .ok "panel") fun _ => .ok []) (.text "")

/-- The text takes in props, and fails afterwards if they are bad. -/
def strictItem : Kind where
  mount := .ok
  update props a :=
    ((a.merge props).1, if (a.merge props).1.has "bad" then some (.failed "bad") else none)
  render _ := titleItem

def strictHost : Host :=
  ⟨fun key => if key = "item" then strictItem else Kind.ofTemplate titlePanel, {}⟩

/-- Draw the page, and hand bad props to the text. -/
def spoilItem : List Command :=
  [.render 3, .deliver "item" [("title", .str "new"), ("bad", .bool true)]]

/-- The render after that goes well, but the page does not show what was written. -/
theorem spoilItem_render : ∃ answers v outcome v' c,
    (ofTemplate strictHost titledPanelPage).run spoilItem = some (answers, v) ∧
    v.render 3 = some (.ok outcome, v') ∧ outcome.errors = [] ∧
    v'.roster.get? 1 = some c ∧ c.retired = false ∧ c.assigns.anyWritten = true ∧
    (c.assigns.get? "title").any (·.same (.str "new")) = true ∧
    v'.html = some "<div><i>old</i></div>" := by
  have hgood : ((ofTemplate strictHost titledPanelPage).run spoilItem).any (fun x =>
      (x.2.render 3).any fun y => y.1.toOption.any (fun o => o.errors.isEmpty) &&
        ((y.2.roster.get? 1).any (fun c => !c.retired && (c.assigns.anyWritten &&
          (c.assigns.get? "title").any (·.same (.str "new")))) &&
          y.2.html = some "<div><i>old</i></div>")) = true := by
    decide +kernel
  simp only [Option.any_eq_true, Bool.and_eq_true, Bool.not_eq_true', List.isEmpty_iff,
    decide_eq_true_eq] at hgood
  obtain ⟨⟨answers, v⟩, hrun, ⟨result, v'⟩, hr, ⟨outcome, hok, herrors⟩,
    ⟨c, hc, hlive, hwritten, htitle⟩, hhtml⟩ := hgood
  cases result with
  | error e => cases hok
  | ok o =>
      obtain rfl := Option.some.inj hok
      exact ⟨answers, v, o, v', c, hrun, hr, herrors, hc, hlive, hwritten,
        (Option.any_eq_true ..).mpr htitle, hhtml⟩

/-- The text was left behind by the command that spoiled it. -/
theorem spoilItem_behind : ∃ (v : View) (outcome : Outcome) (v' : View) (c : Component),
    v.render 3 = some (.ok outcome, v') ∧ outcome.errors = [] ∧ v'.roster.Behind 1 c ∧
    v.roster.Behind 1 c ∧ (ofTemplate strictHost titledPanelPage).LeavesBehind spoilItem 1 c := by
  obtain ⟨answers, v, outcome, v', c, hrun, hr, herrors, hc, -, hwritten, -⟩ := spoilItem_render
  obtain ⟨hrecord, hbehind, hleft⟩ := behind_of_written hrun hr herrors
  have hb := (hrecord 1 c hc).2.mp hwritten
  obtain ⟨done, p, -, -, rfl⟩ := render_ok hr
  have hbefore := ((hbehind done.root 1 c rfl).mp hb).1
  exact ⟨v, outcome, _, c, hr, herrors, hb, hbefore, hleft 1 c hbefore⟩

/-- A live component has been written to since it was rendered, though the last pass went well and
had no failure to report. -/
theorem spoilItem_ahead : ∃ v outcome v' c, Reachable strictHost titledPanelPage v ∧
    v.render 3 = some (.ok outcome, v') ∧ outcome.errors = [] ∧
    v'.roster.get? 1 = some c ∧ c.retired = false ∧ c.assigns.anyWritten = true ∧
    (c.assigns.get? "title").any (·.same (.str "new")) = true ∧
    v'.html = some "<div><i>old</i></div>" := by
  obtain ⟨answers, v, outcome, v', c, hrun, h⟩ := spoilItem_render
  exact ⟨v, outcome, v', c, Reachable.start.run hrun, h⟩

end ViewSync.View
