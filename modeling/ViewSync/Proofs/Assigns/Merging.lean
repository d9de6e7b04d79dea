import ViewSync.Proofs.Assigns.Record

/-!
# Assigns that hold props

Assigns that were only ever handed props of the same names hold the props that they were handed
last, and nothing else. Merging leaves a value alone that counts as the same as the new one; without
negative zeros that is the new one.
-/

namespace ViewSync

/-- Props of certain names, each of them once, without a negative zero. -/
structure Fields.Fit (names : List String) (props : Fields) : Prop where
  /-- The names are there, each of them once. -/
  perm : (props.map Prod.fst).Perm names
  /-- No value has a negative zero in it. -/
  plain : ∀ f ∈ props, f.2.Plain

namespace Assigns

variable {a : Assigns} {names : List String} {props : Fields}

/-- New assigns that were handed props. -/
def ofProps (props : Fields) : Assigns := (empty.merge props).1.settled

/-! ## Merging -/

theorem equal_merge (a : Assigns) (props : Fields) : (a.merge props).1.equal = a.equal := by
  induction props generalizing a with
  | nil => rfl
  | cons e props ih =>
      unfold merge
      split
      · exact ih a
      · exact ih (a.set e.1 e.2)

theorem sorted_merge (ha : a.values.Sorted) (props : Fields) :
    (a.merge props).1.values.Sorted := by
  induction props generalizing a with
  | nil => exact ha
  | cons e props ih =>
      unfold merge
      split
      · exact ih ha
      · exact ih (a := a.set e.1 e.2) (Keyed.sorted_insert ha e.1 e.2)

/-- Nothing is written only if everything is as it was. -/
theorem merge_of_before_eq_nil (h : (a.merge props).1.before = []) : (a.merge props).1 = a := by
  induction props generalizing a with
  | nil => rfl
  | cons e props ih =>
      unfold merge at h ⊢
      split at h
      · next hequal =>
          rw [if_pos hequal]
          exact ih h
      · -- what was written is on record
        have hsame := ih (a := a.set e.1 e.2) h
        have hget : (a.set e.1 e.2).before.get? e.1 =
            some ((a.before.get? e.1).getD (a.get? e.1)) :=
          (Keyed.get?_insertNew _ _ _ _).trans (if_pos rfl)
        dsimp only at h
        rw [← hsame, h] at hget
        cases hget

/-- Nothing is written where all is as it should be. -/
theorem merge_of_get? (hequal : a.equal = Value.same)
    (h : ∀ e ∈ props, a.get? e.1 = some e.2) : (a.merge props).1 = a := by
  induction props with
  | nil => rfl
  | cons e props ih =>
      have hhas : a.hasEqual e.1 e.2 = true := by
        rw [hasEqual, h e List.mem_cons_self, hequal]
        exact Value.same_refl e.2
      unfold merge
      rw [if_pos hhas]
      exact ih fun e' he' => h e' (List.mem_cons_of_mem _ he')

/-- **The values after a merge are the new ones, where there are any.** -/
theorem get?_merge (hequal : a.equal = Value.same) (ha : a.All Value.Plain)
    (hplain : ∀ f ∈ props, f.2.Plain) (hnd : (props.map Prod.fst).Nodup) (name : String) :
    (a.merge props).1.get? name = (Keyed.get? props name).or (a.get? name) := by
  induction props generalizing a with
  | nil => rfl
  | cons e props ih =>
      obtain ⟨k, v⟩ := e
      have hv : v.Plain := hplain _ List.mem_cons_self
      have hrest : ∀ f ∈ props, f.2.Plain := fun f hf => hplain f (List.mem_cons_of_mem _ hf)
      obtain ⟨hk, hnd'⟩ := List.nodup_cons.mp hnd
      have hnone : Keyed.get? props k = none := Keyed.get?_of_not_mem_keys hk
      unfold merge
      split
      · next hhas =>
          -- the value that was left alone is the new one
          obtain ⟨w, hw, hsame⟩ := (Option.any_eq_true ..).mp hhas
          rw [hequal] at hsame
          obtain rfl := Value.eq_of_same w v (ha k w hw) hv hsame
          rw [ih hequal ha hrest hnd']
          by_cases hname : k = name
          · subst hname
            simp [Keyed.get?, hnone, hw]
          · simp [Keyed.get?, hname]
      · have hset : (a.set k v).All Value.Plain := by
          intro n w hw
          rw [get?, set, Keyed.get?_insert] at hw
          split at hw
          · obtain rfl := Option.some.inj hw
            exact hv
          · exact ha n w hw
        rw [ih (a := a.set k v) hequal hset hrest hnd']
        by_cases hname : k = name
        · subst hname
          simp [Keyed.get?, hnone, get?_set_self]
        · simp [Keyed.get?, hname, get?_set_of_ne a v (Ne.symm hname)]

/-! ## Assigns that hold nothing but props -/

/-- Assigns that have values of no other names, and no negative zero. -/
structure Propped (names : List String) (a : Assigns) : Prop where
  /-- Values are compared as they are. -/
  equal : a.equal = Value.same
  /-- The names are in order. -/
  sorted : a.values.Sorted
  /-- No value has a negative zero in it. -/
  plain : a.All Value.Plain
  /-- No other name has a value. -/
  names : ∀ name, a.get? name ≠ none → name ∈ names

theorem sorted_empty : empty.values.Sorted := List.Pairwise.nil

theorem propped_empty : Propped names empty where
  equal := rfl
  sorted := sorted_empty
  plain _ _ h := by cases h
  names _ h := absurd rfl h

theorem ext_settled {b : Assigns} (hequal : a.equal = b.equal) (ha : a.values.Sorted)
    (hb : b.values.Sorted) (h : ∀ name, a.get? name = b.get? name) : a.settled = b.settled := by
  have hvalues : a.values = b.values := Keyed.eq_of_get?_eq ha hb h
  simp only [settled, hvalues, hequal]

namespace Propped

theorem settled (ha : a.Propped names) : a.settled.Propped names :=
  ⟨ha.equal, ha.sorted, ha.plain, ha.names⟩

variable (ha : a.Propped names) (hprops : props.Fit names) (hnd : names.Nodup)
include ha hprops hnd

theorem get?_merge (name : String) :
    (a.merge props).1.get? name = (Keyed.get? props name).or (a.get? name) :=
  Assigns.get?_merge ha.equal ha.plain hprops.plain (hprops.perm.nodup_iff.mpr hnd) name

theorem merge : (a.merge props).1.Propped names where
  equal := (equal_merge a props).trans ha.equal
  sorted := sorted_merge ha.sorted props
  plain name v hv := by
    rw [ha.get?_merge hprops hnd, Option.or_eq_some_iff] at hv
    rcases hv with hv | ⟨-, hv⟩
    · exact hprops.plain _ (Keyed.mem_of_get? hv)
    · exact ha.plain name v hv
  names name hname := by
    rw [ha.get?_merge hprops hnd] at hname
    cases hprop : Keyed.get? props name with
    | some v =>
        have hin := List.mem_map_of_mem (f := Prod.fst) (Keyed.mem_of_get? hprop)
        exact hprops.perm.mem_iff.mp hin
    | none =>
        rw [hprop, Option.none_or] at hname
        exact ha.names name hname

/-- **What was there before does not show.** -/
theorem settled_merge : (a.merge props).1.settled = ofProps props := by
  have hnone (name : String) (h : Keyed.get? props name = none) : name ∉ names := by
    intro hin
    obtain ⟨v, hv⟩ := Option.isSome_iff_exists.mp
      (Keyed.mem_keys_iff_has.mp (hprops.perm.mem_iff.mpr hin))
    rw [h] at hv
    cases hv
  refine ext_settled ?_ (sorted_merge ha.sorted props) (sorted_merge sorted_empty props) ?_
  · rw [equal_merge, equal_merge, ha.equal]
    rfl
  · intro name
    have hempty : empty.Propped names := propped_empty
    rw [ha.get?_merge hprops hnd, hempty.get?_merge hprops hnd]
    cases hprop : Keyed.get? props name with
    | some v => rfl
    | none =>
        have hout : a.get? name = none :=
          Classical.not_not.mp fun hhas => hnone name hprop (ha.names name hhas)
        rw [hout]
        rfl

/-- Props that are held already change nothing. -/
theorem merge_same (hsame : a.settled = ofProps props) : (a.merge props).1 = a := by
  refine merge_of_get? ha.equal fun e he => ?_
  have hnd' : (props.map Prod.fst).Nodup := hprops.perm.nodup_iff.mpr hnd
  change a.settled.get? e.1 = _
  rw [hsame]
  change (empty.merge props).1.get? e.1 = _
  have hempty : empty.Propped names := propped_empty
  rw [hempty.get?_merge hprops hnd, Keyed.get?_of_mem hnd' he]
  rfl

end Propped

/-! ## Assigns in order -/

theorem values_setAll (a : Assigns) (entries : Fields) :
    (a.setAll entries).values = entries.foldl (fun m e => m.insert e.1 e.2) a.values ∧
      (a.setAll entries).equal = a.equal := by
  unfold setAll
  induction entries generalizing a with
  | nil => exact ⟨rfl, rfl⟩
  | cons e entries ih => exact ih (a.set e.1 e.2)

theorem sorted_setAll (ha : a.values.Sorted) (entries : Fields) :
    (a.setAll entries).values.Sorted := by
  unfold setAll
  induction entries generalizing a with
  | nil => exact ha
  | cons e entries ih => exact ih (a := a.set e.1 e.2) (Keyed.sorted_insert ha e.1 e.2)

/-- Writing all values of assigns to new ones makes the same assigns. -/
theorem settled_setAll (hequal : a.equal = Value.same) (ha : a.values.Sorted) :
    (empty.setAll a.values).settled = a.settled := by
  obtain ⟨hvalues, heq⟩ := values_setAll empty a.values
  refine ext_settled (heq.trans hequal.symm) (sorted_setAll sorted_empty _) ha fun name => ?_
  rw [get?, hvalues]
  exact Keyed.get?_ofList (Keyed.nodup_keys ha) name

theorem sorted_write (ha : a.values.Sorted) (w : Write) : (a.write w).values.Sorted := by
  cases w with
  | set name v => exact Keyed.sorted_insert ha name v
  | setAll entries => exact sorted_setAll ha entries
  | setDefault name init =>
      change (if a.has name then (a, false) else (a.set name (init a), true)).1.values.Sorted
      split
      · exact ha
      · exact Keyed.sorted_insert ha name _
  | update name f =>
      simp only [write, update, get]
      cases a.get? name with
      | none => exact ha
      | some v => exact Keyed.sorted_insert ha name _
  | merge entries => exact sorted_merge ha entries
  | invalidate => exact ha

end Assigns

end ViewSync
