import ViewSync.Proofs.Roster.Referred
import ViewSync.Proofs.Tree.Handles
import ViewSync.Proofs.View.Standing

/-!
# Slots that point at nothing

What the client was sent points at components by handle, and a handle is given to another component
once the client was told that the first one is gone. A tree that a pass renders points at components
that have a tree of their own when the pass ends, and are there for as long as the client was not
told otherwise. So a slot can only point at nothing, and later at a component that it was not
rendered for, if a pass told the client of a handle while a tree that it left alone still points at
it.
-/

namespace ViewSync.View

open Roster

/-- Some slot that the client was sent points at a handle: in the page, or in a component. -/
def PointsAt (v : View) (h : Handle) : Prop :=
  (∃ t, v.sent = some t ∧ h ∈ t.handles) ∨ ∃ k t, v.roster.tree? k = some t ∧ h ∈ t.handles

/-- Some slot points at a handle under which the client was sent nothing. -/
def Dangles (v : View) (h : Handle) : Prop := v.PointsAt h ∧ v.roster.tree? h = none

variable {v : View} {h : Handle}

theorem PointsAt.congr {v' : View} (hp : v'.PointsAt h) (hsent : v'.sent = v.sent)
    (htree : ∀ k, v'.roster.tree? k = v.roster.tree? k) : v.PointsAt h := by
  rcases hp with ⟨t, ht, hin⟩ | ⟨k, t, ht, hin⟩
  · exact .inl ⟨t, hsent ▸ ht, hin⟩
  · exact .inr ⟨k, t, htree k ▸ ht, hin⟩

theorem Dangles.congr {v' : View} (hd : v'.Dangles h) (hsent : v'.sent = v.sent)
    (htree : ∀ k, v'.roster.tree? k = v.roster.tree? k) : v.Dangles h :=
  ⟨hd.1.congr hsent htree, htree h ▸ hd.2⟩

/-! ## One pass -/

section Account

variable {S : Shape → Prop} {fuel : Nat} {done : Rendering} {p p₁ p₂ : Pass} {root : Tree}
variable {rs : Refs} {fs : List (String × Stream.Flush)} {former : FormerTrees}
variable (ha : Account S v fuel done p root rs fs p₁ p₂ former)
include ha

/-- A component that is live when the queue is drained has a tree in the end, unless it is
stillborn. -/
theorem Account.tree_of_lives (hl : p₂.roster.Lives h) (hborn : h ∉ p₂.roster.stillborn) :
    p.roster.tree? h ≠ none := by
  obtain ⟨c, hc, hlive⟩ := hl
  obtain ⟨c', hc', -, hret, -⟩ := ha.record_final hc hborn
  rw [tree?_of_get? hc']
  exact ha.brought.drawn h c' hc' (hret.trans hlive)

/-- What the new page points at has a tree. -/
theorem Account.tree_of_root (hrest : v.roster.Resting) (hin : h ∈ done.root.handles) :
    p.roster.tree? h ≠ none := by
  rw [ha.root_eq, Tree.mem_handles_blank] at hin
  have hopen : Underway none v.opened.roster := hrest.arena.congr rfl rfl rfl rfl rfl
  have hl : p₁.roster.Lives h := by
    refine (lives_course hopen ha.course h ?_).resolve_right fun heq => by cases heq
    rw [← ha.tells.handles]
    exact hin.1
  obtain ⟨c, hc, hlive⟩ := hl
  obtain ⟨c', hc', -, hret⟩ := ha.drains.record ha.kinds ha.redrawn hc
  exact ha.tree_of_lives ⟨c', hc', hret.trans hlive⟩ hin.2

/-- What the tree of a component points at has a tree, unless the tree is as it was. -/
theorem Account.tree_of_component {k : Handle} {t : Tree} (ht : p.roster.tree? k = some t)
    (hin : h ∈ t.handles) : v.roster.tree? k = some t ∨ p.roster.tree? h ≠ none := by
  cases fate ha.redrawn₂ ha.compared k with
  | dropped hnone _ =>
      rw [tree?_of_none hnone] at ht
      cases ht
  | untouched _ hsame hkept =>
      rw [tree?, hsame, ← tree?, hkept] at ht
      exact .inl ht
  | @redrawn c u hformer hborn hc hu hnew =>
      have hut : u.blank p₂.roster.stillborn = t :=
        Option.some.inj ((tree?_of_get? hnew).symm.trans ht)
      rw [← hut, Tree.mem_handles_blank] at hin
      -- the tree was drawn in this pass
      obtain ⟨htree, hnoted⟩ := ha.tree?_drained k
      obtain ⟨w, hw⟩ := Option.ne_none_iff_exists'.mp (hnoted.mp (List.mem_map_of_mem hformer))
      rw [hw, Option.some_or, tree?_of_get? hc, hu] at htree
      obtain rfl := Option.some.inj htree
      obtain ⟨d, hd, -, hresult⟩ := lastDrawn_mem hw
      exact .inr (ha.tree_of_lives (ha.drains.lives ha.kinds ha.redrawn d hd u hresult h hin.1)
        hin.2)

end Account

/-- **A slot comes to point at nothing only when the client is told so.** -/
theorem Standing.dangles_render {S : Shape → Prop} {fuel : Nat} {outcome : Outcome} {v' : View}
    (hs : Standing S v) (hr : v.render fuel = some (.ok outcome, v')) (hd : v'.Dangles h) :
    v.Dangles h ∨ h ∈ outcome.message.gone := by
  obtain ⟨done, p, hall, rfl, rfl⟩ := render_ok hr
  obtain ⟨root, handles, fs, p₁, p₂, former, ha⟩ := hs.account hall
  have htree := tree?_settle v v.streams.plans done p
  by_cases hgone : h ∈ (v.settle v.streams.plans done p).1.message.gone
  · exact .inr hgone
  · obtain ⟨hpoints, hnone⟩ := hd
    rw [htree, if_neg hgone] at hnone
    refine .inl ⟨?_, Classical.byContradiction fun hold => ha.brought.kept h hold hnone⟩
    rcases hpoints with ⟨t, ht, hin⟩ | ⟨k, t, ht, hin⟩
    · obtain rfl : done.root = t := Option.some.inj ht
      exact absurd hnone (ha.tree_of_root hs.resting hin)
    · rw [htree] at ht
      split at ht
      · cases ht
      · exact .inr ⟨k, t, (ha.tree_of_component ht hin).resolve_right fun hsome =>
          hsome hnone, hin⟩

/-! ## Runs -/

/-- A pass that tells the client of a handle, and leaves a slot that points at it. -/
def Strands (v : View) (fuel : Nat) (h : Handle) : Prop :=
  ∃ outcome v', v.render fuel = some (.ok outcome, v') ∧ h ∈ outcome.message.gone ∧ v'.PointsAt h

/-- No other command leaves a slot that points at nothing. -/
theorem Standing.dangles_exec {S : Shape → Prop} {cmd : Command} {answer : Answer} {v' : View}
    (hs : Standing S v) (hx : v.exec cmd = some (answer, v')) (hd : v'.Dangles h) :
    v.Dangles h ∨ ∃ fuel, cmd = .render fuel ∧ v.Strands fuel h := by
  cases effect_of_exec hx with
  | mount id kind props unsent =>
      exact .inl (hd.congr rfl fun k => (hs.refer id kind props).kept k rfl)
  | unmount id unsent => exact .inl (hd.congr rfl (retires_unmount v.roster id).tree)
  | deliver id props unsent => exact .inl (hd.congr rfl fun k => (hs.deliver id props).kept k rfl)
  | @render fuel result _ hr =>
      cases result with
      | error e =>
          rw [render_error hs.resting hr] at hd
          exact .inl hd
      | ok outcome =>
          exact (hs.dangles_render hr hd).imp_right fun hgone =>
            ⟨fuel, rfl, outcome, v', hr, hgone, hd.1⟩
  | close =>
      -- nothing is left that could point anywhere
      rcases hd.1 with ⟨t, ht, -⟩ | ⟨k, t, ht, -⟩
      · cases ht
      · have hnone : v.close.2.roster.get? k = none := get?_unmountEach hs.resting k
        rw [tree?_of_none hnone] at ht
        cases ht
  | _ => exact .inl hd

/-- A slot that points at nothing after a run was left by some pass of it. -/
theorem Standing.dangles_run {S : Shape → Prop} {cmds : List Command} {answers : List Answer}
    {v' : View} (hs : Standing S v) (hrun : v.run cmds = some (answers, v')) (hd : v'.Dangles h) :
    v.Dangles h ∨ ∃ before fuel after earlier w, cmds = before ++ .render fuel :: after ∧
      v.run before = some (earlier, w) ∧ w.Strands fuel h := by
  induction cmds generalizing v answers with
  | nil =>
      obtain ⟨-, rfl⟩ := Prod.mk.inj (Option.some.inj hrun)
      exact .inl hd
  | cons cmd cmds ih =>
      obtain ⟨answer, rest, w, hexec, hrest, -⟩ := run_cons hrun
      rcases ih (hs.exec hexec) hrest with hd | ⟨before, fuel, after, earlier, u, rfl, hu, hstrands⟩
      · refine (hs.dangles_exec hexec hd).imp_right ?_
        rintro ⟨fuel, rfl, hstrands⟩
        exact ⟨[], fuel, cmds, [], v, rfl, rfl, hstrands⟩
      · refine .inr ⟨cmd :: before, fuel, after, answer :: earlier, u, rfl, ?_, hstrands⟩
        rw [View.run, hexec]
        simp only [hu, Option.map_some]

/-! ## New components -/

/-- A command that gives a handle to a new component: it is mounted, or referred to in a pass. -/
inductive Creates (v : View) (h : Handle) : Command → Prop where
  | mount {id : String} {kind : KindRef} {props : Fields} : v.roster.handle? id = none →
      (v.mount id kind props).1 = .ok h → Creates v h (.mount id kind props)
  | render {fuel : Nat} {result : Except Error Rendering} {p : Pass} {u : Undo} :
      v.renderAll fuel v.opened = some (result, p) → p.roster.undo = some u → h ∈ u.born →
      Creates v h (.render fuel)

/-- Mounting answers what the reference does. -/
theorem mount_fst (v : View) (id : String) (kind : KindRef) (props : Fields) :
    (v.mount id kind props).1 =
      (v.roster.refer v.host.kinds id kind props none).1.map Prod.fst := by
  obtain ⟨unsent, heq⟩ := withRoster_eq v
    ((v.roster.refer v.host.kinds id kind props none).1.map Prod.fst,
      (v.roster.refer v.host.kinds id kind props none).2)
  exact congrArg Prod.fst heq

/-- What is mounted under a new id gets the handle that is to be given out next. -/
theorem eq_takeHandle_of_mount {id : String} {kind : KindRef} {props : Fields}
    (hid : v.roster.handle? id = none) (hok : (v.mount id kind props).1 = .ok h) :
    h = v.roster.takeHandle.1 := by
  rw [mount_fst] at hok
  have hspec := refer_spec v.host.kinds v.roster id kind props none
  generalize (v.roster.refer v.host.kinds id kind props none).1 = x at hspec hok
  generalize (v.roster.refer v.host.kinds id kind props none).2 = r at hspec
  cases hspec with
  | refused e => cases hok
  | failed => cases hok
  | stillborn hid' => rw [hid] at hid'; cases hid'
  | inside hid' => rw [hid] at hid'; cases hid'
  | stale hid' => rw [hid] at hid'; cases hid'
  | unchanged hid' => rw [hid] at hid'; cases hid'
  | created => exact (Except.ok.inj hok).symm

/-- A new component gets a handle that no other has. -/
theorem get?_of_creates (hrest : v.roster.Resting) {cmd : Command} (hc : v.Creates h cmd) :
    v.roster.get? h = none := by
  cases hc with
  | mount hid hok =>
      rw [eq_takeHandle_of_mount hid hok]
      exact get?_takeHandle hrest.arena.spare_empty
  | @render fuel result p u hall hu hin =>
      obtain ⟨r, u', former, ht, hp⟩ := renderAll_traced hrest hall
      rw [hp] at hu
      change r.undo.map _ = some u at hu
      rw [ht.undo] at hu
      obtain rfl := Option.some.inj hu
      exact ht.born h hin

/-- **Which slots can show a component that they were not rendered for.** If something points at the
handle of a new component, then a pass before told the client that the handle is gone, and left the
slot as it was. -/
theorem strands_of_creates {host : Host} {root : Template} {cmds : List Command} {cmd : Command}
    {answers : List Answer} (hrun : (ofTemplate host root).run cmds = some (answers, v))
    (hcreates : v.Creates h cmd) (hpoints : v.PointsAt h) :
    ∃ before fuel after earlier w, cmds = before ++ .render fuel :: after ∧
      (ofTemplate host root).run before = some (earlier, w) ∧ w.Strands fuel h := by
  have hstart : Standing (fun _ => True) (ofTemplate host root) :=
    standing_start trivial fun _ _ => trivial
  have hnone := get?_of_creates (hstart.run hrun).resting hcreates
  refine (hstart.dangles_run hrun ⟨hpoints, tree?_of_none hnone⟩).resolve_left fun hd => ?_
  rcases hd.1 with ⟨t, ht, -⟩ | ⟨k, t, ht, -⟩
  · cases ht
  · have hempty : (ofTemplate host root).roster.get? k = none := by
      simp [ofTemplate, ofConfig, Roster.get?]
    rw [tree?_of_none hempty] at ht
    cases ht

/-- A panel around another component. -/
def panel : Template :=
  .hole "<div>" (.component ⟨"inner", "inner"⟩ (fun _ => .ok "inner") fun _ => .ok [])
    (.text "</div>")

/-- A page that consists of a panel. -/
def panelPage : Template :=
  .hole "" (.component ⟨"panel", "panel"⟩ (fun _ => .ok "panel") fun _ => .ok []) (.text "")

def panelHost : Host :=
  ⟨fun key => Kind.ofTemplate
    (if key = "panel" then panel else if key = "inner" then .text "<i>inner</i>"
      else .text "<b>other</b>"), {}⟩

/-- What is in the panel is taken out of the view, and the client told so. -/
def emptied : List Command := [.render 2, .unmount "inner", .render 2]

/-- Another component is mounted. -/
def mountOther : Command := .mount "other" ⟨"other", "other"⟩ []

theorem emptied_creates : ∃ answers v, (ofTemplate panelHost panelPage).run emptied =
    some (answers, v) ∧ v.Creates 1 mountOther ∧ v.PointsAt 1 := by
  have hgood : ((ofTemplate panelHost panelPage).run emptied).any (fun x =>
      (x.2.roster.tree? 0).any (fun t => 1 ∈ t.handles) &&
        (x.2.roster.handle? "other").isNone &&
          (x.2.mount "other" ⟨"other", "other"⟩ []).1.toOption = some 1) = true := by
    decide +kernel
  obtain ⟨⟨answers, v⟩, hrun, hgood⟩ := (Option.any_eq_true ..).mp hgood
  simp only [Bool.and_eq_true, decide_eq_true_eq, Option.isNone_iff_eq_none] at hgood
  obtain ⟨⟨htree, hid⟩, hmount⟩ := hgood
  obtain ⟨t, ht, hin⟩ := (Option.any_eq_true ..).mp htree
  refine ⟨answers, v, hrun, .mount hid ?_, .inr ⟨0, t, ht, by simpa using hin⟩⟩
  cases hok : (v.mount "other" ⟨"other", "other"⟩ []).1 with
  | error e =>
      rw [hok] at hmount
      cases hmount
  | ok k =>
      rw [hok] at hmount
      exact congrArg _ (Option.some.inj hmount)

/-- It is the pass after the component was taken out that leaves the slot. -/
theorem emptied_strands : ∃ answers v, (ofTemplate panelHost panelPage).run emptied =
      some (answers, v) ∧ v.Creates 1 mountOther ∧ v.PointsAt 1 ∧
    ∃ before fuel after earlier w, emptied = before ++ .render fuel :: after ∧
      (ofTemplate panelHost panelPage).run before = some (earlier, w) ∧ w.Strands fuel 1 := by
  obtain ⟨answers, v, hrun, hcreates, hpoints⟩ := emptied_creates
  exact ⟨answers, v, hrun, hcreates, hpoints, strands_of_creates hrun hcreates hpoints⟩

/-- The panel then shows the other component, which it never referred to. -/
theorem emptied_shows_other : ∃ answers v, (ofTemplate panelHost panelPage).run emptied =
      some (answers, v) ∧ v.Creates 1 mountOther ∧ v.PointsAt 1 ∧
    ((v.run [mountOther, .render 2]).bind fun x => x.2.html) = some "<div><b>other</b></div>" := by
  obtain ⟨answers, v, hrun, hcreates, hpoints⟩ := emptied_creates
  have hpage : ((ofTemplate panelHost panelPage).run emptied).all (fun x =>
      ((x.2.run [mountOther, .render 2]).bind fun y => y.2.html) =
        some "<div><b>other</b></div>") = true := by decide +kernel
  rw [hrun, Option.all_some, decide_eq_true_eq] at hpage
  exact ⟨answers, v, hrun, hcreates, hpoints, hpage⟩

end ViewSync.View
