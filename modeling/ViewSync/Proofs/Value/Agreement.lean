import ViewSync.Value
import ViewSync.Proofs.Keyed.Related

/-!
# Values that are the same JSON

Whoever reads a value off the wire keeps the fields of an object in an order of its own, and of
several fields of one name the last. What it can tell of a value is therefore its canonical form,
and two values *agree* if these are equal. Arrays agree item by item. Objects agree name by name,
wherever their fields stand, as long as each has a name only once.
-/

namespace ViewSync.Value

/-- Equal once both are canonical. -/
def Agrees (v w : Value) : Prop := v.sorted.same w.sorted = true

instance : DecidableRel Agrees := fun v w => inferInstanceAs (Decidable (v.sorted.same w.sorted))

theorem agrees_refl (v : Value) : v.Agrees v := same_refl v.sorted

/-- Values of two kinds never agree. -/
theorem Agrees.ctorIdx_eq {v w : Value} (h : v.Agrees w) : v.ctorIdx = w.ctorIdx := by
  cases v <;> cases w <;> first | rfl | simp [Agrees, sorted, same] at h

/-! ## Scalars -/

@[simp] theorem agrees_null : Agrees .null .null := agrees_refl .null

@[simp] theorem agrees_bool {a b : Bool} : Agrees (.bool a) (.bool b) ↔ a = b := by
  simp [Agrees, sorted, same]

@[simp] theorem agrees_int {a b : Int} : Agrees (.int a) (.int b) ↔ a = b := by
  simp [Agrees, int, sorted, same, Number.same]

theorem agrees_nat {a b : Nat} : Agrees (.int a) (.int b) ↔ a = b :=
  agrees_int.trans Int.natCast_inj

@[simp] theorem agrees_str {a b : String} : Agrees (.str a) (.str b) ↔ a = b := by
  simp [Agrees, sorted, same]

/-- A number that may be left out. -/
theorem agrees_elim_null {x y : Option Int} :
    (x.elim .null int).Agrees (y.elim .null int) ↔ x = y := by
  match x, y with
  | none, none => simp
  | some a, some b => simp
  | none, some b => exact ⟨fun h => (nomatch h.ctorIdx_eq), nofun⟩
  | some a, none => exact ⟨fun h => (nomatch h.ctorIdx_eq), nofun⟩

/-! ## Arrays -/

theorem sortedItems_eq_map (vs : List Value) : sortedItems vs = vs.map sorted := by
  induction vs with
  | nil => rfl
  | cons v vs ih => rw [sortedItems, List.map_cons, ih]

theorem sameItems_iff : ∀ vs ws : List Value,
    sameItems vs ws = true ↔ List.Forall₂ (fun v w => v.same w = true) vs ws
  | [], [] => by simp [sameItems]
  | [], _ :: _ => by simp [sameItems]
  | _ :: _, [] => by simp [sameItems]
  | v :: vs, w :: ws => by simp [sameItems, sameItems_iff vs ws]

theorem agrees_arr {vs ws : List Value} :
    Agrees (.arr vs) (.arr ws) ↔ List.Forall₂ Agrees vs ws := by
  unfold Agrees
  rw [sorted, sorted, same, sameItems_iff, sortedItems_eq_map, sortedItems_eq_map,
    List.forall₂_map_left_iff, List.forall₂_map_right_iff]

/-- Lists of what can be told from its wire form can be told from theirs. -/
theorem agrees_arr_map {α : Type} {f : α → Value} (hf : ∀ a b, (f a).Agrees (f b) ↔ a = b)
    {xs ys : List α} : Agrees (.arr (xs.map f)) (.arr (ys.map f)) ↔ xs = ys := by
  have heq : (fun a b => (f a).Agrees (f b)) = Eq := funext₂ fun a b => propext (hf a b)
  rw [agrees_arr, List.forall₂_map_left_iff, List.forall₂_map_right_iff, heq,
    List.forall₂_eq_eq_eq]

/-! ## Objects -/

theorem sortedFields_eq_map (fs : List (String × Value)) :
    sortedFields fs = fs.map fun f => (f.1, f.2.sorted) := by
  induction fs with
  | nil => rfl
  | cons f fs ih => rw [sortedFields, List.map_cons, ih]

theorem sameFields_iff : ∀ fs gs : List (String × Value),
    sameFields fs gs = true ↔ Keyed.Related (fun v w => v.same w = true) fs gs
  | [], [] => by simp [sameFields]
  | [], _ :: _ => by simp [sameFields]
  | _ :: _, [] => by simp [sameFields]
  | (_, _) :: fs, (_, _) :: gs => by simp [sameFields, sameFields_iff fs gs]

/-- What the canonical form of an object answers. -/
theorem get?_sortedFields {fs : List (String × Value)} (hnd : (fs.map Prod.fst).Nodup)
    (name : String) :
    (Keyed.ofList (sortedFields fs)).get? name = (Keyed.get? fs name).map sorted := by
  have hkeys : (sortedFields fs).map Prod.fst = fs.map Prod.fst := by
    rw [sortedFields_eq_map, List.map_map]
    rfl
  rw [Keyed.get?_ofList (hkeys ▸ hnd), sortedFields_eq_map]
  clear hnd hkeys
  induction fs with
  | nil => rfl
  | cons f fs ih => by_cases hf : f.1 = name <;> simp [Keyed.get?, hf, ih]

/-- Objects that have each name once agree name by name. -/
theorem agrees_obj {fs gs : List (String × Value)} (hfs : (fs.map Prod.fst).Nodup)
    (hgs : (gs.map Prod.fst).Nodup) :
    Agrees (.obj fs) (.obj gs) ↔
      ∀ name, Option.Rel Agrees (Keyed.get? fs name) (Keyed.get? gs name) := by
  have hrel (x y : Option Value) :
      Option.Rel (fun v w => v.same w = true) (x.map sorted) (y.map sorted) ↔
        Option.Rel Agrees x y := by
    cases x <;> cases y <;> simp [Agrees]
  unfold Agrees
  rw [sorted, sorted, same, sameFields_iff,
    Keyed.related_iff_get? (Keyed.sorted_ofList _) (Keyed.sorted_ofList _)]
  refine forall_congr' fun name => ?_
  rw [get?_sortedFields hfs, get?_sortedFields hgs]
  exact hrel _ _

end ViewSync.Value
