import ViewSync.Proofs.View.Brought

/-!
# Views between commands

What is true of the trees of a view whenever no pass is open, whatever commands came before: each
fits its shape, and of the components only those are without one that wait to be rendered. It holds
of templates with streams and without; what else is known of the shapes of all templates is known of
the trees as well.
-/

namespace ViewSync.View

open Roster

variable {S : Shape → Prop}

/-- The roster is at rest, and all trees are in order. -/
structure Standing (S : Shape → Prop) (v : View) : Prop where
  /-- The root is of such a shape. -/
  root : S v.root.shape
  /-- Every kind renders templates of such a shape. -/
  kinds : ∀ key a, S ((v.host.kinds key).render a).shape
  /-- No pass is under way. -/
  resting : v.roster.Resting
  /-- Every live component has a tree or is queued, and trees are of such a shape. -/
  drawn : Redrawn S v.roster none v.roster []
  /-- The page fits. -/
  sent : ∀ t, v.sent = some t → t.Fits

theorem standing_start {host : Host} {root : Template} (hroot : S root.shape)
    (hkinds : ∀ key a, S ((host.kinds key).render a).shape) :
    Standing S (ofTemplate host root) := by
  have hempty (h : Handle) : (ofTemplate host root).roster.get? h = none := by
    simp [ofTemplate, ofConfig, get?]
  have hrest := resting_ofConfig host.config
  refine ⟨hroot, hkinds, hrest, ⟨hrest.arena, ?_, ?_, fun _ _ => rfl, fun _ _ hf => (by cases hf),
    fun _ h => (by cases h), List.Pairwise.nil⟩, fun _ h => (by cases h)⟩
  · intro h t ht
    rw [tree?_of_none (hempty h)] at ht
    cases ht
  · intro h c hc
    rw [hempty] at hc
    cases hc

/-- The trees of components after a pass. Those that are gone have none. -/
theorem tree?_settle (v : View) (plans : List (String × Stream.Plan)) (done : Rendering) (p : Pass)
    (k : Handle) : (v.settle plans done p).2.roster.tree? k =
      if k ∈ (v.settle plans done p).1.message.gone then none else p.roster.tree? k :=
  tree?_reclaim_tell (retires_closePass p.roster _) k

theorem tree?_of_settle {v : View} {plans : List (String × Stream.Plan)} {done : Rendering}
    {p : Pass} {k : Handle} {t : Tree} (ht : (v.settle plans done p).2.roster.tree? k = some t) :
    k ∉ (v.settle plans done p).1.message.gone ∧ p.roster.tree? k = some t := by
  rw [tree?_settle] at ht
  split at ht
  · cases ht
  · next hkept => exact ⟨hkept, ht⟩

namespace Standing

variable {v : View}

/-- Live components without a tree are queued. -/
theorem waiting (hs : Standing S v) {h : Handle} {c : Component} (hc : v.roster.get? h = some c)
    (hlive : c.retired = false) (hnone : c.tree = none) : h ∈ v.roster.queue := by
  rcases hs.drawn.waiting h c hc hlive hnone with hin | hin | hcur
  · exact hin
  · rw [hs.resting.stillborn] at hin
    cases hin
  · cases hcur

/-- A roster whose trees are as before. -/
theorem withRoster {r : Roster} (hs : Standing S v) (hrest : r.Resting)
    (hd : Redrawn S v.roster none r []) (unsent : Concerns) :
    Standing S { v with roster := r, unsent } where
  root := hs.root
  kinds := hs.kinds
  resting := hrest
  drawn := by
    refine ⟨hrest.arena, hd.suits, hd.waiting, fun _ _ => rfl, fun _ _ hf => (by cases hf), ?_,
      List.Pairwise.nil⟩
    intro h hh
    change h ∈ r.stillborn at hh
    rw [hrest.stillborn] at hh
    cases hh
  sent := hs.sent

/-- Retiring leaves every tree in place until the client is told. -/
theorem retires {r : Roster} (hs : Standing S v) (hrest : r.Resting)
    (hr : Retires v.roster r) : Redrawn S v.roster none r [] := by
  have hstillborn : r.stillborn = v.roster.stillborn :=
    hrest.stillborn.trans hs.resting.stillborn.symm
  refine hs.drawn.congr hrest.arena hr.tree hstillborn (fun k c' hc' hlive hnone => .inr ?_) ?_
  · obtain ⟨c, hc, heq, hlive'⟩ := hr.record k c' hc'
    refine ⟨c, hc, hlive' hlive, ?_⟩
    rw [heq] at hnone
    exact hnone
  · rw [hr.queue]
    exact fun _ hk => hk

/-- A pass that goes well has its account. -/
theorem account (hs : Standing S v) {fuel : Nat} {done : Rendering} {p : Pass}
    (h : v.renderAll fuel v.opened = some (.ok done, p)) :
    ∃ root handles fs p₁ p₂ former, Account S v fuel done p root handles fs p₁ p₂ former :=
  account_renderAll hs.kinds hs.drawn hs.sent h

/-- What is true of a pass that goes well, before it is settled. -/
theorem renderAll (hs : Standing S v) {fuel : Nat} {done : Rendering} {p : Pass}
    (h : v.renderAll fuel v.opened = some (.ok done, p)) :
    Brought S v.roster p.roster done.components ∧ p.roster.Arena ∧ Suits S done.root ∧
      Tree.patchFrom .nowhere v.sent done.root = .ok done.patch := by
  obtain ⟨root, handles, fs, p₁, p₂, former, ha⟩ := hs.account h
  refine ⟨ha.brought, arena_renderAll hs.resting h, ?_, ha.patch⟩
  rw [ha.root_eq]
  exact Suits.blank ⟨ha.fits, ha.shape ▸ hs.root⟩ _

/-- Settling a pass leaves the trees that it brought about. -/
theorem settle {done : Rendering} {p : Pass} (hs : Standing S v)
    (plans : List (String × Stream.Plan))
    (hbrought : Brought S v.roster p.roster done.components) (harena : p.roster.Arena)
    (hroot : Suits S done.root) : Standing S (v.settle plans done p).2 := by
  unfold View.settle
  dsimp only
  generalize (v.streams.adopt _).holds = holds
  have hretires := retires_closePass p.roster holds
  have hclosed := harena.closePass holds
  refine ⟨hs.root, hs.kinds, hclosed.reclaim_tell, ?_, ?_⟩
  · exact Redrawn.told hbrought.suits
      (fun h c hc hlive hnone => absurd hnone (hbrought.drawn h c hc hlive)) hretires hclosed
  · rintro t ⟨⟩
    exact hroot.1

theorem render {fuel : Nat} {outcome : Outcome} {v' : View} (hs : Standing S v)
    (hr : v.render fuel = some (.ok outcome, v')) : Standing S v' := by
  obtain ⟨done, p, hall, -, rfl⟩ := render_ok hr
  obtain ⟨hbrought, harena, hroot, -⟩ := hs.renderAll hall
  exact hs.settle _ hbrought harena hroot

/-- A reference between passes. -/
theorem refer (hs : Standing S v) (id : String) (kind : KindRef) (props : Fields) :
    Redrawn S v.roster none (v.roster.refer v.host.kinds id kind props none).2 [] := by
  have hedit : Edit v.host.kinds (fun _ => True) v.roster
      (v.roster.refer v.host.kinds id kind props none).2 :=
    edit_refer v.roster id kind none fun _ _ => trivial
  exact hs.drawn.edit hedit

/-- Props that are delivered between passes. -/
theorem deliver (hs : Standing S v) (id : String) (props : Fields) :
    Redrawn S v.roster none (v.roster.deliver v.host.kinds id props).2 [] := by
  have hedit : Edit v.host.kinds (fun _ => True) v.roster
      (v.roster.deliver v.host.kinds id props).2 :=
    edit_deliver hs.resting.undo id fun _ _ => trivial
  exact hs.drawn.edit hedit

/-- **The trees are in order after every command.** -/
theorem exec {cmd : Command} {answer : Answer} {v' : View} (hs : Standing S v)
    (hx : v.exec cmd = some (answer, v')) : Standing S v' := by
  cases effect_of_exec hx with
  | write w => exact ⟨hs.root, hs.kinds, hs.resting, hs.drawn, hs.sent⟩
  | mount id kind props unsent =>
      exact hs.withRoster (hs.resting.refer v.host.kinds id kind props none)
        (hs.refer id kind props) unsent
  | unmount id unsent =>
      have hrest := hs.resting.unmount id
      exact hs.withRoster hrest (hs.retires hrest (retires_unmount v.roster id)) unsent
  | deliver id props unsent =>
      exact hs.withRoster (hs.resting.deliver v.host.kinds id props) (hs.deliver id props) unsent
  | keyStream name keyOf => exact ⟨hs.root, hs.kinds, hs.resting, hs.drawn, hs.sent⟩
  | changeStream unsent hc => exact ⟨hs.root, hs.kinds, hs.resting, hs.drawn, hs.sent⟩
  | refuse hc => exact hs
  | notify e => exact ⟨hs.root, hs.kinds, hs.resting, hs.drawn, hs.sent⟩
  | @render fuel result _ hr =>
      cases result with
      | error e =>
          rw [render_error hs.resting hr]
          exact hs
      | ok outcome => exact hs.render hr
  | close =>
      have hrest := hs.resting.unmountEach
      refine ⟨hs.root, hs.kinds, hrest.reclaim_tell, ?_, fun _ ht => (by cases ht)⟩
      exact Redrawn.told hs.drawn.suits (fun h c hc => hs.waiting hc)
        (retires_unmountEach v.roster) hrest

/-- **They are so after every run.** -/
theorem run {cmds : List Command} {answers : List Answer} {v' : View} (hs : Standing S v)
    (hrun : v.run cmds = some (answers, v')) : Standing S v' := by
  induction cmds generalizing v answers with
  | nil =>
      obtain ⟨-, rfl⟩ := Prod.mk.inj (Option.some.inj hrun)
      exact hs
  | cons cmd cmds ih =>
      obtain ⟨answer, rest, w, hexec, hrest, -⟩ := run_cons hrun
      exact ih (hs.exec hexec) hrest

end Standing

/-- All templates are alike in that nothing is known of their shapes. -/
theorem standing_reachable {host : Host} {root : Template} {v : View} (hv : Reachable host root v) :
    Standing (fun _ => True) v :=
  hv.invariant (standing_start trivial fun _ _ => trivial) fun _ _ _ _ hs => hs.exec

end ViewSync.View
