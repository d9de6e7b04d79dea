import ViewSync.Proofs.View.Standing

/-!
# What trees inherit

A pass renders against the trees from before and keeps parts of them. A property that a tree has
whenever the tree that it was rendered against has it, and that is not lost when components are
blanked, is handed down from pass to pass. So it is true of every tree of a view, that of the root
and those of all components, after any run.
-/

namespace ViewSync

/-- A property that rendering hands down from the tree before, and that blanking keeps. -/
structure Host.HandsDown (host : Host) (Q : Tree → Prop) : Prop where
  /-- Blanking keeps it. -/
  blank : ∀ t gone, Q t → Q (t.blank gone)
  /-- A tree has it that is rendered over such a tree, or over none. -/
  template : ∀ s t before p tree, (∀ b, before = some b → Q b) →
    ((Pass.template host s t before).run p).1 = .ok tree → Q tree

variable {host : Host} {Q : Tree → Prop} {S : Shape → Prop}

/-- **Draining the queue hands a property down** to what is drawn. -/
theorem Roster.Drains.inherits {r₀ : Roster} {p₀ p : Pass} {ds : List Drawing}
    {former : FormerTrees} (hQ : host.HandsDown Q)
    (hS : ∀ key a, S ((host.kinds key).render a).shape) (hp₀ : Redrawn S r₀ none p₀.roster [])
    (hd : Drains host p₀ ds p former) (h₀ : ∀ k t, p₀.roster.tree? k = some t → Q t) :
    ∀ k t, p.roster.tree? k = some t → Q t := by
  refine hd.induct (P := fun _ p _ => ∀ k t, p.roster.tree? k = some t → Q t) hS hp₀ h₀
    (fun ih _ _ => ih) ?_
  intro ds p former h c rs fs q result ih hredrawn hdraw k t ht
  rw [hdraw.tree?_settle hredrawn.arena] at ht
  cases hnew : if h = k then result.toOption else none with
  | none =>
      rw [hnew, Option.none_or] at ht
      exact ih k t ht
  | some u =>
      rw [hnew, Option.some_or] at ht
      obtain rfl := Option.some.inj ht
      -- it was rendered against the tree that the component had
      have hresult : result = .ok u := by
        split at hnew
        · cases result with
          | ok v => exact congrArg _ (Option.some.inj hnew)
          | error e => cases hnew
        · cases hnew
      have hrun := (congrArg Prod.fst hdraw.run).trans hresult
      refine hQ.template _ _ c.tree _ u (fun b hb => ?_) hrun
      exact ih h b ((tree?_of_get? hdraw.record).trans hb)

namespace View

open Roster

variable {v w : View} {fuel : Nat}

/-- All trees of a view have a property. -/
structure AllTrees (Q : Tree → Prop) (v : View) : Prop where
  /-- The page has it. -/
  sent : ∀ t, v.sent = some t → Q t
  /-- The trees of components have it. -/
  components : ∀ k t, v.roster.tree? k = some t → Q t

namespace AllTrees

/-- **A pass hands a property down** to the tree of the root and to those of components. -/
theorem renderAll {done : Rendering} {p : Pass} (hv : v.AllTrees Q) (hQ : v.host.HandsDown Q)
    (hs : Standing S v) (hall : v.renderAll fuel v.opened = some (.ok done, p)) :
    Q done.root ∧ ∀ k t, p.roster.tree? k = some t → Q t := by
  obtain ⟨root, hs', fs, p₁, p₂, former, ha⟩ := hs.account hall
  have hroot : Q root := hQ.template _ _ v.sent _ root hv.sent (congrArg Prod.fst ha.run)
  have hstart (k : Handle) (t : Tree) (ht : p₁.roster.tree? k = some t) : Q t :=
    hv.components k t ((ha.redrawn.kept k rfl).symm.trans ht)
  have hdrained := ha.drains.inherits hQ ha.kinds ha.redrawn hstart
  refine ⟨?_, fun k t ht => ?_⟩
  · rw [ha.root_eq]
    exact hQ.blank root _ hroot
  · cases fate ha.redrawn₂ ha.compared k with
    | dropped hnone _ =>
        rw [tree?_of_none hnone] at ht
        cases ht
    | untouched _ hsame _ =>
        rw [tree?, hsame, ← tree?] at ht
        exact hdrained k t ht
    | redrawn _ _ hc htree hblank =>
        obtain rfl := Option.some.inj ((tree?_of_get? hblank).symm.trans ht)
        exact hQ.blank _ _ (hdrained k _ ((tree?_of_get? hc).trans htree))

/-- **Every command leaves a view all of whose trees have inherited it.** -/
theorem exec {cmd : Command} {answer : Answer} (hv : v.AllTrees Q) (hQ : v.host.HandsDown Q)
    (hs : Standing S v) (hx : v.exec cmd = some (answer, w)) : w.AllTrees Q := by
  cases effect_of_exec hx with
  | mount id kind props unsent =>
      refine ⟨hv.sent, fun k t ht => hv.components k t ?_⟩
      exact ((hs.refer id kind props).kept k rfl).symm.trans ht
  | unmount id unsent =>
      refine ⟨hv.sent, fun k t ht => hv.components k t ?_⟩
      exact ((retires_unmount v.roster id).tree k).symm.trans ht
  | deliver id props unsent =>
      refine ⟨hv.sent, fun k t ht => hv.components k t ?_⟩
      exact ((hs.deliver id props).kept k rfl).symm.trans ht
  | @render fuel result _ hr =>
      cases result with
      | error e =>
          rw [render_error hs.resting hr]
          exact hv
      | ok outcome =>
          obtain ⟨done, p, hall, -, rfl⟩ := render_ok hr
          obtain ⟨hroot, hcomponents⟩ := hv.renderAll hQ hs hall
          refine ⟨fun t ht => ?_, fun k t ht => hcomponents k t (tree?_of_settle ht).2⟩
          obtain rfl := Option.some.inj ht
          exact hroot
  | close =>
      refine ⟨fun _ ht => (by cases ht), fun k t ht => ?_⟩
      change v.roster.unmountEach.2.tell.2.reclaim.tree? k = some t at ht
      rw [tree?_reclaim_tell (retires_unmountEach v.roster)] at ht
      split at ht
      · cases ht
      · exact hv.components k t ht
  | _ => exact ⟨hv.sent, hv.components⟩

end AllTrees

/-- **What is handed down is true of every tree of a view.** -/
theorem allTrees_reachable {root : Template} (hQ : host.HandsDown Q)
    (hv : Reachable host root v) : v.AllTrees Q := by
  induction hv with
  | start =>
      refine ⟨fun _ ht => (by cases ht), fun k t ht => ?_⟩
      rw [tree?_of_none (by simp [ofTemplate, ofConfig, get?])] at ht
      cases ht
  | step hreach hexec ih =>
      have hhost := hreach.host_eq
      exact ih.exec (hhost ▸ hQ) (standing_reachable hreach) hexec

end View

end ViewSync
