import ViewSync.Proofs.View.Dangling
import ViewSync.Proofs.View.Leaving
import ViewSync.Proofs.View.Unowned

/-!
# Slots point at live components

In a view without streams, a run where nothing is taken out by hand and no component fails never
leaves a slot that points at nothing. A slot could come to do so only when a pass tells the client
of a handle and leaves a slot that points at it; but without stream entries, a pass of such a run
tells the client of no handle that a slot points at.
-/

namespace ViewSync.View

open Roster

variable {host : Host} {root : Template} {mounted : List Handle} {v v' : View} {h : Handle}

/-- In an undisturbed run, whatever has a record is live, and has an id. -/
theorem Undisturbed.handle?_of_get? (hv : Undisturbed host root mounted v) {c : Component}
    (hc : v.roster.get? h = some c) : v.roster.handle? c.id = some h := by
  have harena := (resting_reachable hv.reachable).arena
  have hlive := (harena.not_retired_iff hc).mp (hv.retired ▸ List.not_mem_nil)
  exact (harena.ids_iff c.id h).mpr ⟨c, hc, rfl, hlive⟩

/-- The state after a write. -/
theorem Undisturbed.write (hv : Undisturbed host root mounted v) (w : Assigns.Write) :
    Undisturbed host root mounted (v.writeAssigns (·.write w)) := by
  have hexec : v.exec (.write w) = some (.done, v.writeAssigns (·.write w)) := rfl
  exact hv.step hexec rfl rfl

/-- The state after a render that reports no failure. -/
theorem Undisturbed.render (hv : Undisturbed host root mounted v) {fuel : Nat} {outcome : Outcome}
    (hr : v.render fuel = some (.ok outcome, v')) (hclean : outcome.errors = []) :
    Undisturbed host root [] v' := by
  have hexec : v.exec (.render fuel) = some (.rendered (.ok outcome) v'.html, v') := by
    rw [exec, hr]
    rfl
  exact hv.step hexec rfl (List.isEmpty_iff.mpr hclean)

/-- **Without stream entries, no slot points at a handle that the client is told is gone.** -/
theorem Undisturbed.not_pointsAt_of_gone (hfree : StreamFree host root)
    (hv : Undisturbed host root mounted v) {fuel : Nat} {outcome : Outcome}
    (hr : v.render fuel = some (.ok outcome, v')) (hclean : outcome.errors = [])
    (hgone : h ∈ outcome.message.gone) : ¬v'.PointsAt h := by
  have hv' := hv.render hr hclean
  obtain ⟨done, p, hall, rfl, rfl⟩ := render_ok hr
  have hs := hv.sighted hall hclean
  obtain ⟨hstanding, hunowned⟩ := unowned_reachable hfree hv.reachable
  have hout : h ∉ p.roster.seenAtClose (v.settle v.streams.plans done p).2.streams.holds := by
    refine (hs.lost_of_gone hgone).resolve_right ?_
    rintro ⟨c, e, hc, howner, -⟩
    rw [(unowned_renderAll hstanding hunowned hall).owner_eq hc] at howner
    cases howner
  rintro (⟨t, ht, hin⟩ | ⟨k, t, ht, hin⟩)
  · obtain rfl : done.root = t := Option.some.inj ht
    exact hout ((followed_followAll p.roster _).before h (hs.root h hin))
  · obtain ⟨c, hc, -⟩ := Option.bind_eq_some_iff.mp ht
    exact hout (hs.seen_of_slot (hv'.handle?_of_get? hc) ht hin)

/-- No slot ever comes to point at nothing. -/
theorem Undisturbed.not_dangles (hfree : StreamFree host root)
    (hv : Undisturbed host root mounted v) : ¬v.Dangles h := by
  induction hv with
  | start =>
      rintro ⟨⟨t, ht, -⟩ | ⟨k, t, ht, -⟩, -⟩
      · cases ht
      · have hempty : (ofTemplate host root).roster.get? k = none := by
          simp [ofTemplate, ofConfig, Roster.get?]
        rw [tree?_of_none hempty] at ht
        cases ht
  | @step mounted v v' cmd answer hv hexec _ hclean ih =>
      intro hd
      rcases (standing_reachable hv.reachable).dangles_exec hexec hd with
        hd | ⟨fuel, rfl, outcome, w, hr, hgone, hpoints⟩
      · exact ih hd
      · -- the pass that would have left the slot is this one
        rw [exec, hr] at hexec
        obtain ⟨rfl, rfl⟩ := Prod.mk.inj (Option.some.inj hexec)
        exact hv.not_pointsAt_of_gone hfree hr (List.isEmpty_iff.mp hclean) hgone hpoints

/-- What is pointed at is there, with a tree. -/
theorem Undisturbed.tree_of_pointsAt (hfree : StreamFree host root)
    (hv : Undisturbed host root mounted v) (hpoints : v.PointsAt h) : v.roster.tree? h ≠ none :=
  fun hnone => hv.not_dangles hfree ⟨hpoints, hnone⟩

/-- **Every slot points at a live component that has a tree**: in the page that was sent last, and
in the tree of every component. -/
theorem live_of_pointsAt (hfree : StreamFree host root) (hv : Undisturbed host root mounted v)
    (hpoints : v.PointsAt h) :
    (∃ id, v.roster.handle? id = some h) ∧ v.roster.tree? h ≠ none := by
  have htree := hv.tree_of_pointsAt hfree hpoints
  obtain ⟨t, ht⟩ := Option.ne_none_iff_exists'.mp htree
  obtain ⟨c, hc, -⟩ := Option.bind_eq_some_iff.mp ht
  exact ⟨⟨c.id, hv.handle?_of_get? hc⟩, htree⟩

/-- What is pointed at has the id that it had when the pass ended. -/
theorem Undisturbed.handle?_of_pointsAt (hfree : StreamFree host root)
    (hv : Undisturbed host root mounted v) (hpoints : v.PointsAt h) {r : Roster} (hr : r.Arena)
    (hsub : ∀ c, v.roster.get? h = some c → r.get? h = some c) {id : String}
    (hid : r.handle? id = some h) :
    v.roster.handle? id = some h ∧ ∃ c, v.roster.get? h = some c := by
  obtain ⟨t, ht⟩ := Option.ne_none_iff_exists'.mp (hv.tree_of_pointsAt hfree hpoints)
  obtain ⟨c, hc, -⟩ := Option.bind_eq_some_iff.mp ht
  obtain ⟨d, hd, rfl, -⟩ := (hr.ids_iff id h).mp hid
  obtain rfl := Option.some.inj (hd.symm.trans (hsub c hc))
  exact ⟨hv.handle?_of_get? hc, d, hc⟩

theorem streamFree_panelPage : StreamFree panelHost panelPage := by
  refine ⟨⟨trivial, trivial⟩, fun key a => ?_⟩
  change Shape.StreamFree (Template.shape (if key = "panel" then panel else _))
  split
  · exact ⟨trivial, trivial⟩
  · split
    · exact trivial
    · exact trivial

/-- The panel is sent, then gets props, and a component is mounted beside it. -/
def extended : List Command :=
  [.render 2, .deliver "panel" [("title", .str "news")], .mount "aside" ⟨"aside", "aside"⟩ []]

/-- After the next pass, the panel still points at what is in it. -/
theorem extended_live : ∃ mounted v outcome v', Undisturbed panelHost panelPage mounted v ∧
    v.render 3 = some (.ok outcome, v') ∧ outcome.errors = [] ∧ v'.PointsAt 1 ∧
    (∃ id, v'.roster.handle? id = some 1) ∧ v'.roster.tree? 1 ≠ none := by
  obtain ⟨mounted, v, outcome, v', hv, hr, hclean, htest⟩ :=
    undisturbed_of_run panelHost panelPage extended 3
      (fun _ _ _ w => (w.roster.tree? 0).any fun t => decide (1 ∈ Tree.handles t))
      (by decide +kernel)
  simp only [decide_eq_true_eq, Option.any_eq_true] at htest
  obtain ⟨t, ht, hin⟩ := htest
  have hpoints : v'.PointsAt 1 := .inr ⟨0, t, ht, hin⟩
  exact ⟨mounted, v, outcome, v', hv, hr, hclean, hpoints,
    live_of_pointsAt streamFree_panelPage (hv.render hr hclean) hpoints⟩

end ViewSync.View
