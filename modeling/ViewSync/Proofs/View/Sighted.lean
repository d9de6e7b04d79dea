import ViewSync.Proofs.Roster.Closing
import ViewSync.Proofs.Roster.Sighted
import ViewSync.Proofs.Tree.Handles
import ViewSync.Proofs.View.Undisturbed

/-!
# What a pass without failures sees

When no failure is left, everything that the new page points at is seen, and of the components that
are seen everything that their trees point at: those that were drawn refer to what they point at,
and those that were not are followed.
-/

namespace ViewSync

namespace Roster

theorem lastDrawn_ne_none {ds : List Drawing} {d : Drawing} {t : Tree} (hd : d ∈ ds)
    (ht : d.result = .ok t) : lastDrawn ds d.handle ≠ none := by
  unfold lastDrawn
  rw [Ne, List.findSome?_eq_none_iff]
  intro hnone
  have hthis := hnone d (List.mem_reverse.mpr hd)
  rw [if_pos rfl, ht] at hthis
  cases hthis

end Roster

namespace View

open Roster

variable {S : Shape → Prop} {v : View} {fuel : Nat} {done : Rendering} {p p₁ p₂ : Pass}
variable {root : Tree} {rs : Refs} {fs : List (String × Stream.Flush)}
variable {former : FormerTrees}

/-- A tree at the end of a pass points at nothing but what it pointed at when the queue was
drained. -/
theorem Account.tree_drained (ha : Account S v fuel done p root rs fs p₁ p₂ former) {k : Handle}
    {t : Tree} (ht : p.roster.tree? k = some t) :
    ∃ u, p₂.roster.tree? k = some u ∧ ∀ h ∈ t.handles, h ∈ u.handles := by
  cases fate ha.redrawn₂ ha.compared k with
  | dropped hnone _ =>
      rw [tree?_of_none hnone] at ht
      cases ht
  | untouched _ hsame _ =>
      rw [tree?, hsame, ← tree?] at ht
      exact ⟨t, ht, fun _ hin => hin⟩
  | @redrawn c u _ _ hc hu hnew =>
      obtain rfl : u.blank p₂.roster.stillborn = t :=
        Option.some.inj ((tree?_of_get? hnew).symm.trans ht)
      exact ⟨u, (tree?_of_get? hc).trans hu, fun _ hin => (Tree.mem_handles_blank.mp hin).1⟩

/-- What has been seen by the end of a pass, before it is closed. -/
structure Sighted (v : View) (fuel : Nat) (done : Rendering) (p : Pass) : Prop where
  /-- Records, ids and handles go together. -/
  arena : p.roster.Arena
  /-- Every record is that of a live component. -/
  retired : p.roster.retired = []
  /-- What the page refers to is seen. -/
  root : ∀ h ∈ done.root.handles, h ∈ p.roster.seen
  /-- Every drawing came to a tree, and what that refers to is seen. -/
  drawn : ∀ d ∈ v.drawings fuel, ∃ t, d.result = .ok t ∧ ∀ h ∈ t.handles, h ∈ p.roster.seen
  /-- What the tree of a component refers to is seen, if the component is. -/
  component : ∀ k ∈ p.roster.seen, ∀ t, p.roster.tree? k = some t →
    ∀ h ∈ t.handles, h ∈ p.roster.seen

theorem Sighted.live (hs : Sighted v fuel done p) {h : Handle} {c : Component}
    (hc : p.roster.get? h = some c) : c.retired = false :=
  (hs.arena.not_retired_iff hc).mp (hs.retired ▸ List.not_mem_nil)

theorem retired_renderAll (hrest : v.roster.Resting) {result : Except Error Rendering}
    (hall : v.renderAll fuel v.opened = some (result, p)) :
    p.roster.retired = v.roster.retired := by
  obtain ⟨r, u, former, ht, hp⟩ := renderAll_traced hrest hall
  rw [hp]
  exact ht.retired

section Account

variable (ha : Account S v fuel done p root rs fs p₁ p₂ former) (hrest : v.roster.Resting)
variable (herrors : p.errors = [])
include ha hrest herrors

/-- What is seen when the queue is drained, where no failure is left. -/
theorem Account.sighted_drained : p₂.roster.stillborn = [] ∧
    (∀ h ∈ root.handles, h ∈ p₂.roster.seen) ∧
      ∀ d ∈ v.drawings fuel, ∃ t, d.result = .ok t ∧ ∀ h ∈ t.handles, h ∈ p₂.roster.seen := by
  have hopen : v.opened.roster.stillborn = [] := hrest.stillborn
  obtain ⟨hborn₁, -, hroot⟩ := seen_course ha.course hopen
  obtain ⟨hborn, hkept, hdrawn⟩ :=
    ha.drains.sighted ha.kinds ha.redrawn hborn₁ (ha.errors ▸ herrors)
  refine ⟨hborn, fun h hin => hkept h (hroot h ?_), hdrawn⟩
  rw [← ha.tells.handles]
  exact hin

/-- Nothing is dropped, so that the pass ends with what is seen by then. -/
theorem Account.seen_eq : p.roster.seen = p₂.roster.seen := by
  rw [ha.seen, dropStillborn, (ha.sighted_drained hrest herrors).1]
  rfl

/-- Of a component that is seen, all that its tree points at is seen. -/
theorem Account.seen_tree (htidy : Tidy none [] v.roster) (hretired : p₂.roster.retired = [])
    {k h : Handle} {t : Tree} (hk : k ∈ p₂.roster.seen) (ht : p₂.roster.tree? k = some t)
    (hin : h ∈ t.handles) : h ∈ p₂.roster.seen := by
  obtain ⟨-, -, hdrawn⟩ := ha.sighted_drained hrest herrors
  have hlast := (ha.tree?_drained k).1
  cases hdraw : lastDrawn (v.drawings fuel) k with
  | some u =>
      -- the tree was drawn in this pass
      rw [hdraw, Option.some_or, ht] at hlast
      obtain rfl := Option.some.inj hlast
      obtain ⟨d, hd, -, hresult⟩ := lastDrawn_mem hdraw
      obtain ⟨w, hw, hseen⟩ := hdrawn d hd
      obtain rfl := Except.ok.inj (hresult.symm.trans hw)
      exact hseen h hin
  | none =>
      cases hc : p₂.roster.get? k with
      | none =>
          rw [tree?_of_none hc] at ht
          cases ht
      | some c =>
          have hlive := (ha.redrawn₂.arena.not_retired_iff hc).mp (hretired ▸ List.not_mem_nil)
          rw [tree?_of_get? hc] at ht
          rcases (ha.tidy hrest htidy).covered k c t hc hlive ht hk with hqueue | htried | hall
          · rw [ha.drained] at hqueue
            cases hqueue
          · obtain ⟨d, hd, rfl⟩ := List.mem_map.mp htried
            obtain ⟨w, hw, -⟩ := hdrawn d hd
            exact absurd hdraw (lastDrawn_ne_none hd hw)
          · refine (hall h hin).resolve_right ?_
            rw [hretired]
            exact List.not_mem_nil

end Account

/-- **A pass without failures has seen all that its trees point at.** -/
theorem Undisturbed.sighted {host : Host} {template : Template} {mounted : List Handle}
    (hv : Undisturbed host template mounted v)
    (hall : v.renderAll fuel v.opened = some (.ok done, p)) (herrors : p.errors = []) :
    Sighted v fuel done p := by
  have hstanding := standing_reachable hv.reachable
  have hrest := hstanding.resting
  obtain ⟨root, rs, fs, p₁, p₂, former, ha⟩ := hstanding.account hall
  have harena := arena_renderAll hrest hall
  have hretired : p.roster.retired = [] := (retired_renderAll hrest hall).trans hv.retired
  obtain ⟨hborn, hroot, hdrawn⟩ := ha.sighted_drained hrest herrors
  have hseen := ha.seen_eq hrest herrors
  have hretired₂ : p₂.roster.retired = [] := by
    refine List.eq_nil_iff_forall_not_mem.mpr fun k hk => ?_
    obtain ⟨c, hc, hret⟩ := (ha.redrawn₂.arena.retired_iff k).mp hk
    obtain ⟨c', hc', -, hret', -⟩ := ha.record_final hc (hborn ▸ List.not_mem_nil)
    have hin := (harena.retired_iff k).mpr ⟨c', hc', hret'.trans hret⟩
    rw [hretired] at hin
    cases hin
  rw [← hseen] at hroot hdrawn
  refine ⟨harena, hretired, fun h hin => hroot h ?_, hdrawn, fun k hk t ht h hin => ?_⟩
  · rw [ha.root_eq] at hin
    exact (Tree.mem_handles_blank.mp hin).1
  · obtain ⟨u, hu, hsub⟩ := ha.tree_drained ht
    rw [hseen] at hk ⊢
    exact ha.seen_tree hrest herrors (tidy_reachable hv.reachable) hretired₂ hk hu (hsub h hin)

end View

end ViewSync
