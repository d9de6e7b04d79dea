import ViewSync.Proofs.Roster.Smooth
import ViewSync.Proofs.View.Coherent

/-!
# Passes without failures

What the account of a pass comes to when no failure is left: the root has taken a smooth course, as
the drawings have, nothing is dropped, and every component has the tree of its last drawing or the
one that it had before.
-/

namespace ViewSync.View

open Roster

variable {S : Shape → Prop} {v : View} {fuel : Nat} {done : Rendering} {p p₁ p₂ : Pass}
variable {root : Tree} {rs : Refs} {fs : List (String × Stream.Flush)}
variable {former : FormerTrees}

/-- A pass starts with flushes of the streams that they stand for. -/
theorem named_opened (v : View) : v.opened.Named := by
  intro name f hf
  obtain ⟨⟨k, plan⟩, hplan, heq⟩ := List.mem_map.mp (Keyed.mem_of_mem_ofList (Keyed.mem_of_get? hf))
  obtain ⟨rfl, rfl⟩ := Prod.mk.inj heq
  obtain ⟨⟨k', s⟩, -, heq⟩ := List.mem_map.mp hplan
  obtain ⟨rfl, rfl⟩ := Prod.mk.inj heq
  rfl

variable (ha : Account S v fuel done p root rs fs p₁ p₂ former) (herrors : p.errors = [])
include ha herrors

theorem Account.errors_root : p₁.errors = [] := by
  have hdone := ha.drains.induct (P := fun _ p _ => p.errors = [] → p₁.errors = []) ha.kinds
    ha.redrawn id (fun ih _ _ => ih) fun ih _ hdraw herrors => ih (hdraw.flawless herrors).1
  exact hdone (ha.errors ▸ herrors)

/-- The root has taken a smooth course, which its tree recalls. -/
theorem Account.smooth_root (hsent : ∀ t, v.sent = some t → t.Fits) :
    ∃ acts, Pass.Smooth v.host.kinds v.opened acts p₁ ∧
      Pass.Recalls root.marks acts := by
  have hgoes := Pass.goes_template v.host (Scope.ofAssigns v.assigns) v.root hsent v.opened root
  rw [ha.run] at hgoes
  exact (hgoes rfl (ha.errors_root herrors)).2 v.named_opened

variable (hrest : v.roster.Resting)
include hrest

/-- The page is the tree that the root was rendered to. -/
theorem Account.root_clean : done.root = root := by
  rw [ha.root_eq, (ha.sighted_drained hrest herrors).1]
  exact Tree.blank_of_disjoint root fun _ _ => List.not_mem_nil

/-- A component has the tree of its last drawing, or the tree that it had before. -/
theorem Account.tree?_clean (k : Handle) :
    p.roster.tree? k = (lastDrawn (v.drawings fuel) k).or (v.roster.tree? k) := by
  rw [tree?, ha.get?_eq (ha.sighted_drained hrest herrors).1, ← tree?]
  exact (ha.tree?_drained k).1

/-- A component that is left after the pass has the tree of its last drawing, or it was not drawn
and has the tree that it had before. -/
theorem Account.tree?_left {plans : List (String × Stream.Plan)} {k : Handle} {t : Tree}
    (ht : (v.settle plans done p).2.roster.tree? k = some t) :
    lastDrawn (v.drawings fuel) k = some t ∨
      (∀ d ∈ v.drawings fuel, d.handle ≠ k) ∧ v.roster.tree? k = some t := by
  have htree := (tree?_of_settle ht).2
  rw [ha.tree?_clean herrors hrest] at htree
  cases hlast : lastDrawn (v.drawings fuel) k with
  | some u =>
      rw [hlast, Option.some_or] at htree
      exact .inl htree
  | none =>
      rw [hlast, Option.none_or] at htree
      refine .inr ⟨fun d hd heq => ?_, htree⟩
      obtain ⟨-, -, hok⟩ := ha.sighted_drained hrest herrors
      obtain ⟨u, hu, -⟩ := hok d hd
      exact lastDrawn_ne_none hd hu (heq ▸ hlast)

end ViewSync.View
