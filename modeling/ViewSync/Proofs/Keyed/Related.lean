import ViewSync.Proofs.Keyed
import Mathlib.Data.List.Forall2

/-!
# Related maps

Two keyed lists are related when they have the same keys, in the same order, and related values
under each of them. Lists in increasing order of key are related as soon as what they answer is.
-/

namespace ViewSync.Keyed

variable {κ α β : Type} {R : α → β → Prop}

/-- Entries one by one under the same keys, with related values. -/
def Related (R : α → β → Prop) (m : Keyed κ α) (n : Keyed κ β) : Prop :=
  List.Forall₂ (fun a b => a.1 = b.1 ∧ R a.2 b.2) m n

namespace Related

@[simp] theorem nil : Related R ([] : Keyed κ α) [] := List.Forall₂.nil

@[simp] theorem cons_iff {k j : κ} {a : α} {b : β} {m : Keyed κ α} {n : Keyed κ β} :
    Related R ((k, a) :: m) ((j, b) :: n) ↔ (k = j ∧ R a b) ∧ Related R m n :=
  List.forall₂_cons

@[simp] theorem nil_left_iff {n : Keyed κ β} : Related R ([] : Keyed κ α) n ↔ n = [] :=
  List.forall₂_nil_left_iff

@[simp] theorem nil_right_iff {m : Keyed κ α} : Related R m ([] : Keyed κ β) ↔ m = [] :=
  List.forall₂_nil_right_iff

theorem get? [DecidableEq κ] {m : Keyed κ α} {n : Keyed κ β} (h : Related R m n) (k : κ) :
    Option.Rel R (m.get? k) (n.get? k) := by
  induction h with
  | nil => exact .none
  | @cons a b _ _ hab _ ih =>
      by_cases hk : a.1 = k
      · simpa [Keyed.get?, hk, ← hab.1] using hab.2
      · simpa [Keyed.get?, hk, ← hab.1] using ih

end Related

theorem related_map_iff {α' β' : Type} {f : α' → α} {g : β' → β} {m : Keyed κ α'}
    {n : Keyed κ β'} :
    Related R (m.map fun e => (e.1, f e.2)) (n.map fun e => (e.1, g e.2)) ↔
      Related (fun a b => R (f a) (g b)) m n :=
  List.forall₂_map_left_iff.trans List.forall₂_map_right_iff

/-- What relates values matters for those that are there only. -/
theorem related_congr {S : α → β → Prop} : ∀ {m : Keyed κ α} {n : Keyed κ β},
    (∀ a ∈ m, ∀ b ∈ n, R a.2 b.2 ↔ S a.2 b.2) → (Related R m n ↔ Related S m n)
  | [], _, _ => by simp
  | _ :: _, [], _ => by simp
  | (_, _) :: _, (_, _) :: _, h => by
      rw [Related.cons_iff, Related.cons_iff, h _ List.mem_cons_self _ List.mem_cons_self,
        related_congr fun a ha b hb =>
          h a (List.mem_cons_of_mem _ ha) b (List.mem_cons_of_mem _ hb)]

theorem sorted_map [LT κ] {m : Keyed κ α} (h : m.Sorted) (f : α → β) :
    Sorted (m.map fun e => (e.1, f e.2)) :=
  List.pairwise_map.mpr h

/-- Lists with the same keys, each of them once, are related if their answers are. -/
theorem related_of_keys [DecidableEq κ] {m : Keyed κ α} {n : Keyed κ β}
    (hkeys : m.map Prod.fst = n.map Prod.fst) (hnd : (m.map Prod.fst).Nodup)
    (h : ∀ k, Option.Rel R (m.get? k) (n.get? k)) : Related R m n := by
  induction m generalizing n with
  | nil =>
      obtain rfl := List.map_eq_nil_iff.mp hkeys.symm
      exact .nil
  | cons a m ih =>
      cases n with
      | nil => cases hkeys
      | cons b n =>
          obtain ⟨hkey, hkeys⟩ := List.cons.inj hkeys
          obtain ⟨hout, hnd⟩ := List.nodup_cons.mp hnd
          have hvalue : R a.2 b.2 := by simpa [Keyed.get?, hkey] using h a.1
          refine .cons ⟨hkey, hvalue⟩ (ih hkeys hnd fun k => ?_)
          by_cases hk : a.1 = k
          · rw [get?_of_not_mem_keys (hk ▸ hout), get?_of_not_mem_keys (hkeys ▸ hk ▸ hout)]
            exact .none
          · simpa [Keyed.get?, hk, ← hkey] using h k

section Sorted

variable [DecidableEq κ] [LT κ] [Std.Irrefl (α := κ) (· < ·)]
variable [Trans (α := κ) (β := κ) (γ := κ) (· < ·) (· < ·) (· < ·)]
variable [Std.Trichotomous (α := κ) (· < ·)]

/-- Increasing lists with related answers have the same keys. -/
theorem keys_eq_of_rel {m : Keyed κ α} {n : Keyed κ β} (hm : m.Sorted) (hn : n.Sorted)
    (h : ∀ k, Option.Rel R (m.get? k) (n.get? k)) : m.map Prod.fst = n.map Prod.fst := by
  have hget {γ : Type} (l : Keyed κ γ) (k : κ) :
      Keyed.get? (l.map fun e => (e.1, ())) k = (l.get? k).map fun _ => () := by
    induction l with
    | nil => rfl
    | cons e l ih => by_cases he : e.1 = k <;> simp [Keyed.get?, he, ih]
  -- without their values the two lists answer alike
  have hbare : m.map (fun e => (e.1, ())) = n.map fun e => (e.1, ()) := by
    refine eq_of_get?_eq (sorted_map hm fun _ => ()) (sorted_map hn fun _ => ()) fun k => ?_
    rw [hget, hget]
    have hk := h k
    generalize m.get? k = x, n.get? k = y at hk ⊢
    cases hk with
    | some _ => rfl
    | none => rfl
  simpa [Function.comp_def] using congrArg (List.map Prod.fst) hbare

/-- Increasing lists are related exactly if their answers are. -/
theorem related_iff_get? {m : Keyed κ α} {n : Keyed κ β} (hm : m.Sorted) (hn : n.Sorted) :
    Related R m n ↔ ∀ k, Option.Rel R (m.get? k) (n.get? k) :=
  ⟨Related.get?, fun h => related_of_keys (keys_eq_of_rel hm hn h) (nodup_keys hm) h⟩

end Sorted

end ViewSync.Keyed
