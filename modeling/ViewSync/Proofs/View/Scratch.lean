import ViewSync.Proofs.Roster.Scratch
import ViewSync.Proofs.View.Allotment
import ViewSync.Proofs.View.Coherent
import ViewSync.Proofs.View.Tracking

/-!
# Rendering from scratch

A new view that is given the assigns which a coherent view was rendered with renders without a
failure, and to the same page.
-/

namespace ViewSync.View

open Roster

variable {host : Host} {template : Template} {l : Library} {fuel : Nat}

/-- A new view with these assigns. -/
def scratch (host : Host) (template : Template) (values : Keyed String Value) : View :=
  (ofTemplate host template).writeAssigns (·.setAll values)

theorem undisturbed_scratch (host : Host) (template : Template) (values : Keyed String Value) :
    Undisturbed host template [] (scratch host template values) :=
  Undisturbed.start.write (.setAll values)

/-- A new roster copies any other. -/
theorem copies_opened (l : Library) {w : Roster} (values : Keyed String Value)
    (hcapacity : w.capacity = host.config.maxComponents) :
    Copies l host w (scratch host template values).opened.roster := by
  have hempty (h : Handle) : (scratch host template values).opened.roster.get? h = none := by
    simp [scratch, opened, openPass, ofTemplate, ofConfig, writeAssigns, openAssigns, Roster.get?]
  have hnone {h : Handle} {c : Component} {P : Prop}
      (hc : (scratch host template values).opened.roster.get? h = some c) : P := by
    cases (hempty h).symm.trans hc
  refine ⟨⟨List.Pairwise.nil, fun h hh => (by cases hh), fun id h hh => (by cases hh), rfl,
    fun h c hc => hnone hc, fun h c hc => hnone hc⟩, List.Pairwise.nil, hcapacity.symm,
    fun h c hc => hnone hc, fun h c hc => hnone hc, fun id h hh => (by cases hh),
    fun h hh => (by cases hh), fun h c hc => hnone hc, fun h c t hc => hnone hc⟩

section Renders

variable {s : View} {w : Roster} {a : Assigns} {tree : Tree}
variable (hl : l.Regular s.host s.root) (hoff : s.host.tracking false = s.host)
include hl hoff

/-- The root goes well where the references of its page are kept up in the other roster. -/
theorem exists_root (hroom : ∀ n, w.capacity = some n → w.size ≤ n) (hsent : s.sent = none)
    (hcopies : Copies l s.host w s.opened.roster)
    (hplain : a.All Value.Plain) (hassigns : s.assigns.settled = a.settled)
    (hfilled : s.root.Filled s.host.config.escapeHtml (Meets w) a tree) :
    ∃ root p₁, (Pass.template s.host (Scope.ofAssigns s.assigns) s.root s.sent).run s.opened =
        (.ok root, p₁) ∧ p₁.errors = [] ∧ Copies l s.host w p₁.roster ∧
      s.root.Filled s.host.config.escapeHtml (fun ref k => p₁.roster.handle? ref.id = some k)
        s.assigns root := by
  have hvalues := hl.regular.values
  have hscope : (Scope.ofAssigns s.assigns).All Value.Plain := by
    refine ⟨List.forall_mem_nil _, ?_⟩
    change s.assigns.settled.All Value.Plain
    rw [hassigns]
    exact hplain
  rw [Template.Filled, ← hassigns] at hfilled
  have hfilled := (s.root.filledAt_settled hvalues (Scope.ofAssigns s.assigns) tree.fillings).mp
    hfilled.2
  have hasked := s.root.filledAt_asks _ tree.fillings hl.regular.makes hscope
    hl.serves_root.suits hfilled
  obtain ⟨root, p₁, hrun, hcopies₁, hsame⟩ := Pass.succeeds_template s.host
    (Copies.welcome hl hroom s.root) hasked s.opened hcopies
  have herrors : p₁.errors = [] := hsame
  have hfills := Pass.fills_template s.host none hl.regular.free hl.regular.makes hscope
    hl.serves_root.suits
  rw [hoff] at hfills
  replace hfills := hfills s.opened
  rw [hrun] at hfills
  obtain ⟨made, hcalls, hsuits, hshape, hmade⟩ := (hfills herrors).2 root rfl
  have htemplated : Templated s.host.kinds := fun key => (hl.kinds key).imp fun _ ht => ht.1
  have hhandled := hcalls.handled htemplated hl.nodup hcopies.open fun e he => (hsuits e he).props
  refine ⟨root, p₁, hsent ▸ hrun, herrors, hcopies₁, ?_⟩
  rw [Template.filled_iff hvalues]
  refine ⟨hshape, s.root.filledAt_imp _ _ (fun ref k _ hin => ?_) hmade.filled⟩
  exact (hhandled.given _ hin).elim (·.1) (·.1.1)

/-- **Rendering from scratch goes well.** -/
theorem exists_renderAll (hw : Coherent l s.host w) (hs : Undisturbed s.host s.root [] s)
    (hroom : ∀ n, w.capacity = some n → w.size ≤ n) (hsent : s.sent = none)
    (hcopies : Copies l s.host w s.opened.roster) (hplain : a.All Value.Plain)
    (hassigns : s.assigns.settled = a.settled)
    (hfilled : s.root.Filled s.host.config.escapeHtml (Meets w) a tree) (hfuel : w.size ≤ fuel) :
    ∃ done p, s.renderAll fuel s.opened = some (.ok done, p) ∧ p.errors = [] ∧
      p.roster.queue = [] ∧ Copies l s.host w p.roster ∧
      s.root.Filled s.host.config.escapeHtml (fun ref k => p.roster.handle? ref.id = some k)
        s.assigns done.root := by
  have hstanding := standing_reachable hs.reachable
  have hrest := hstanding.resting
  obtain ⟨root, p₁, hrun, herrors, hcopies₁, hroot⟩ :=
    exists_root hl hoff hroom hsent hcopies hplain hassigns hfilled
  obtain ⟨hredrawn, -, hfits⟩ :=
    redrawn_root hstanding.kinds hstanding.drawn hstanding.sent hrun
  obtain ⟨_, _, hcourse, -⟩ := Pass.runs_template s.host (Scope.ofAssigns s.assigns) s.root
    hstanding.sent s.opened
  rw [hrun] at hcourse
  have htidy := tidy_course hcourse hrest (tidy_reachable hs.reachable)
  obtain ⟨former, p₂, hdrain, hdone⟩ := hcopies₁.drain hl hoff hw hroom hredrawn htidy .start
    herrors (List.forall_mem_nil _) (Nat.le_trans (remaining_le w p₁.roster) hfuel)
  obtain ⟨ps, hqueue⟩ := hdone.renderQueue hdrain
  have hkept := hdone.copies.keepTrees former
  have hblank : (p₂.roster.keepTrees former).blankStillborn root = root :=
    Tree.blank_of_disjoint root fun _ _ => by
      rw [hkept.open.stillborn]
      exact List.not_mem_nil
  refine ⟨⟨root, .replace root.content, ps⟩, { p₂ with roster := p₂.roster.keepTrees former }, ?_,
    hdone.errors, hdone.queue, hkept, ?_⟩
  · unfold renderAll
    rw [hrun]
    dsimp only
    rw [hqueue]
    dsimp only
    rw [hblank, hsent, Tree.patchFrom_none hfits.wellFormed]
    rfl
  · refine hroot.imp fun ref k _ hk => ?_
    obtain ⟨c, hc, hid, -⟩ := (hredrawn.arena.ids_iff ref.id k).mp hk
    obtain ⟨d, hd, hsame, -⟩ :=
      (drains_drain .start hdrain).1.record hstanding.kinds hredrawn hc
    have hlisted := hkept.listed k d hd
    rw [hsame, hid] at hlisted
    exact hlisted

/-- **So does the page**: it is that of the other roster. -/
theorem exists_render (hw : Coherent l s.host w) (hs : Undisturbed s.host s.root [] s)
    (hroom : ∀ n, w.capacity = some n → w.size ≤ n) (hsent : s.sent = none)
    (hcopies : Copies l s.host w s.opened.roster) (hplain : a.All Value.Plain)
    (hassigns : s.assigns.settled = a.settled)
    (hfilled : s.root.Filled s.host.config.escapeHtml (Meets w) a tree) (hfuel : w.size ≤ fuel) :
    ∃ outcome f, s.render fuel = some (.ok outcome, f) ∧ outcome.errors = [] ∧
      f.html = some (w.html tree) := by
  obtain ⟨done, p, hall, herrors, hqueue, hcopied, hroot⟩ :=
    exists_renderAll hl hoff hw hs hroom hsent hcopies hplain hassigns hfilled hfuel
  have hr := render_of_renderAll hall
  have hf := hs.render hr herrors
  have hfree : StreamFree s.host s.root := ⟨hl.regular.free, hl.streamFree⟩
  have harena := arena_renderAll (resting_reachable hs.reachable) hall
  refine ⟨_, _, hr, herrors, ?_⟩
  generalize hview : (s.settle s.streams.plans done p).2 = f at hf
  have hpage : f.sent = some done.root := hview ▸ rfl
  have hsub (h : Handle) (c : Component) (hc : f.roster.get? h = some c) :
      p.roster.get? h = some c ∧ c.retired = false := by
    rw [← hview] at hc
    obtain ⟨hc, hlive, -⟩ := get?_reclaim_tell_of_retires (retires_closePass p.roster _)
      (harena.closePass _).arena hc
    exact ⟨hc, hlive⟩
  have hlink {id : String} {h : Handle} (hpoints : f.PointsAt h)
      (hid : p.roster.handle? id = some h) : f.roster.handle? id = some h :=
    (hf.handle?_of_pointsAt hfree hpoints harena (fun c hc => (hsub h c hc).1) hid).1
  have hpictured : Pictured l s.host.config.escapeHtml f.roster := by
    intro h c hc
    obtain ⟨hold, hlive⟩ := hsub h c hc
    obtain ⟨⟨u, hu⟩, -⟩ := hcopied.open.settled hqueue hold hlive
    refine ⟨u, hu, (hcopied.trees h c u hold hu).imp fun ref k hk hid => hlink (.inr ?_) hid⟩
    exact ⟨h, u, (tree?_of_get? hc).trans hu, hk⟩
  have htwins (id : String) (h k : Handle) (hh : w.handle? id = some h)
      (hk : f.roster.handle? id = some k) : Twins w f.roster h k := by
    obtain ⟨c, hc, rfl, -⟩ := ((resting_reachable hf.reachable).arena.ids_iff id k).mp hk
    have hold := (hsub k c hc).1
    obtain ⟨h', d, hh', hd, hsame⟩ := hcopied.ids c.id k (hcopied.listed k c hold)
    obtain rfl := Option.some.inj (hh.symm.trans hh')
    exact ⟨d, c, hd, hc, hsame c hold⟩
  rw [html, hpage]
  refine congrArg some (hw.html_eq hl hpictured htwins hassigns.symm hfilled ?_).symm
  exact hroot.imp fun ref k hk hid => hlink (.inl ⟨done.root, hpage, hk⟩) hid

end Renders

end ViewSync.View
