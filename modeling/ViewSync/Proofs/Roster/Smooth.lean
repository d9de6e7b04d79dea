import ViewSync.Proofs.Pass.Smooth
import ViewSync.Proofs.Roster.Sighted

/-!
# Draining without failures

Where no failure is left in the end, every drawing of a pass has gone well and has taken a smooth
course. So an invariant of such passes only has to be kept by what can happen in one.
-/

namespace ViewSync.Roster

open ViewSync.Pass

variable {host : Host} {p₀ p q : Pass} {h : Handle} {c : Component} {rs : Refs}
variable {fs : List (String × Stream.Flush)} {former : FormerTrees} {t : Tree}

section Draws

variable {S : Shape → Prop} {r₀ : Roster} (hd : Draws host p h c rs fs q (.ok t))
variable (hredrawn : Redrawn S r₀ none p.roster former)
include hd hredrawn

theorem Draws.fits_before (u : Tree) (hu : c.tree = some u) : u.Fits :=
  (hredrawn.suits h u ((tree?_of_get? hd.record).trans hu)).1

/-- A drawing that goes well yields a tree that fits. -/
theorem Draws.fits : t.Fits := by
  have hclosed : Closed host.kinds (fun _ => True) fun _ => True := by
    constructor <;> intros <;> trivial
  have hyields := yields_template hclosed (Scope.all_true (Scope.ofAssigns c.assigns))
    (Template.makes_true ((host.kinds c.kind.key).render c.assigns)) c.tree (begun p h c) trivial
  rw [hd.run] at hyields
  exact (hyields.2 t rfl).2 (hd.fits_before hredrawn)

/-- A drawing that leaves no failure behind has taken a smooth course, which its tree recalls. -/
theorem Draws.smooth (hp : p.Named) (herrors : q.errors = []) :
    ∃ acts, Smooth host.kinds (begun p h c) acts q ∧ Recalls t.marks acts := by
  have hgoes := goes_template host (Scope.ofAssigns c.assigns)
    ((host.kinds c.kind.key).render c.assigns) (hd.fits_before hredrawn) (begun p h c) t
  rw [hd.run] at hgoes
  exact (hgoes rfl herrors).2 hp

end Draws

/-- **What is true at the start and kept by every drawing that takes a smooth course is true to the
end of a pass that leaves no failure behind.** -/
theorem Drains.smooth {S : Shape → Prop} {r₀ : Roster} {ds : List Drawing}
    {P : List Drawing → Pass → FormerTrees → Prop}
    (hS : ∀ key a, S ((host.kinds key).render a).shape) (hp₀ : Redrawn S r₀ none p₀.roster [])
    (hnamed : p₀.Named) (start : P [] p₀ [])
    (skip : ∀ {ds p former h queue}, P ds p former → p.roster.queue = h :: queue →
      (∀ c, p.roster.get? h = some c → c.retired = true) →
      P ds { p with roster := { p.roster with queue } } former)
    (draw : ∀ {ds p former h c rs fs q t acts}, P ds p former → Redrawn S r₀ none p.roster former →
      Draws host p h c rs fs q (.ok t) → Smooth host.kinds (begun p h c) acts q →
      Recalls t.marks acts →
      P (ds ++ [⟨h, .ok t, takenBetween p q⟩]) (settle q h c former (.ok t)).2.2
        (settle q h c former (.ok t)).2.1)
    (hd : Drains host p₀ ds p former) (herrors : p.errors = []) : P ds p former := by
  have hall : p.errors = [] → p.Named ∧ P ds p former := by
    refine hd.induct (P := fun ds p former => p.errors = [] → p.Named ∧ P ds p former) hS hp₀
      (fun _ => ⟨hnamed, start⟩) (fun ih hq hret herrors => ?_) ?_
    · exact ⟨(ih herrors).1, skip (ih herrors).2 hq hret⟩
    · intro ds p former h c rs fs q result ih hredrawn hdraw herrors
      obtain ⟨hbefore, t, rfl⟩ := hdraw.flawless herrors
      obtain ⟨hp, hP⟩ := ih hbefore
      obtain ⟨acts, hacts, hrecalls⟩ := hdraw.smooth hredrawn hp herrors
      exact ⟨hacts.named hp, draw hP hredrawn hdraw hacts hrecalls⟩
  exact (hall herrors).2

/-- All that is drawn fits. -/
theorem Drains.fits {S : Shape → Prop} {r₀ : Roster} {ds : List Drawing}
    (hS : ∀ key a, S ((host.kinds key).render a).shape) (hp₀ : Redrawn S r₀ none p₀.roster [])
    (hd : Drains host p₀ ds p former) {d : Drawing} (hin : d ∈ ds) (ht : d.result = .ok t) :
    t.Fits := by
  have hall : ∀ d ∈ ds, ∀ t, d.result = .ok t → t.Fits := by
    refine hd.induct (P := fun ds _ _ => ∀ d ∈ ds, ∀ t, d.result = .ok t → t.Fits) hS hp₀
      (List.forall_mem_nil _) (fun ih _ _ => ih) ?_
    intro ds p former h c rs fs q result ih hredrawn hdraw
    refine List.forall_mem_append.mpr ⟨ih, List.forall_mem_singleton.mpr ?_⟩
    rintro u rfl
    exact hdraw.fits hredrawn
  exact hall d hin t ht

end ViewSync.Roster
