import ViewSync.Keyed

/-!
# The order of keyed lists

Every operation of keyed lists keeps the entries in strictly increasing order of key, so a list that
was built by them has each key once. Such a list is settled by what it answers: two of them that
agree on every look-up are the same list. The same order is kept in sets.
-/

namespace ViewSync

namespace Keyed

variable {κ α : Type} [LT κ]

/-! ## Kept by changes that add no key -/

theorem sorted_nil : Sorted ([] : Keyed κ α) := List.Pairwise.nil

theorem sorted_erase [DecidableEq κ] {m : Keyed κ α} (h : m.Sorted) (k : κ) : (m.erase k).Sorted :=
  List.Pairwise.filter _ h

/-! ## Kept by insertion -/

section Insert

variable [DecidableEq κ] [DecidableRel (α := κ) (· < ·)]

theorem mem_of_mem_insert {m : Keyed κ α} {k : κ} {v : α} {e : κ × α} (h : e ∈ m.insert k v) :
    e = (k, v) ∨ e ∈ m := by
  induction m with
  | nil => simpa [insert] using h
  | cons a m ih =>
    simp only [insert] at h
    split at h
    · grind
    · split at h
      · simpa using h
      · rcases List.mem_cons.mp h with rfl | h
        · simp
        · exact (ih h).imp id (List.mem_cons_of_mem _)

variable [Trans (α := κ) (β := κ) (γ := κ) (· < ·) (· < ·) (· < ·)]
variable [Std.Trichotomous (α := κ) (· < ·)]

theorem sorted_insert {m : Keyed κ α} (h : m.Sorted) (k : κ) (v : α) : (m.insert k v).Sorted := by
  induction m with
  | nil => exact List.pairwise_singleton ..
  | cons e m ih =>
    obtain ⟨below, rest⟩ := List.pairwise_cons.mp h
    simp only [insert]
    split
    · next hk => exact List.pairwise_cons.mpr ⟨fun b hb => hk ▸ below b hb, rest⟩
    · split
      · next hlt =>
        refine List.pairwise_cons.mpr ⟨fun b hb => ?_, h⟩
        rcases List.mem_cons.mp hb with rfl | hb
        · exact hlt
        · exact Std.lt_trans hlt (below b hb)
      · next hne hlt =>
        refine List.pairwise_cons.mpr ⟨fun b hb => ?_, ih rest⟩
        rcases mem_of_mem_insert hb with rfl | hb
        · -- neither equal to the key in front nor below it
          exact Classical.byContradiction fun hge =>
            hne (Std.Trichotomous.trichotomous (r := (· < ·)) e.1 k hge hlt)
        · exact below b hb

theorem sorted_insertNew {m : Keyed κ α} (h : m.Sorted) (k : κ) (v : α) :
    (m.insertNew k v).Sorted := by
  unfold insertNew
  split
  · exact h
  · exact sorted_insert h k v

theorem sorted_ofList (entries : List (κ × α)) : (ofList entries : Keyed κ α).Sorted := by
  suffices ∀ m : Keyed κ α, m.Sorted → (entries.foldl (fun m e => m.insert e.1 e.2) m).Sorted from
    this [] sorted_nil
  induction entries with
  | nil => exact fun _ h => h
  | cons e entries ih => exact fun m h => ih _ (sorted_insert h e.1 e.2)

end Insert

/-! ## Settled by look-ups -/

section Lookup

variable [DecidableEq κ]

theorem get?_eq_none_of_below [Std.Irrefl (α := κ) (· < ·)] {m : Keyed κ α} {k : κ}
    (h : ∀ e ∈ m, k < e.1) : m.get? k = none := by
  induction m with
  | nil => rfl
  | cons e m ih =>
    have hne : e.1 ≠ k := fun he => Std.Irrefl.irrefl (r := (· < ·)) k (he ▸ h e List.mem_cons_self)
    simp only [get?, hne, if_false]
    exact ih fun e he => h e (List.mem_cons_of_mem _ he)

variable [Std.Irrefl (α := κ) (· < ·)]
variable [Trans (α := κ) (β := κ) (γ := κ) (· < ·) (· < ·) (· < ·)]
variable [Std.Trichotomous (α := κ) (· < ·)]

/-- Increasing lists that answer alike are equal. -/
theorem eq_of_get?_eq {m n : Keyed κ α} (hm : m.Sorted) (hn : n.Sorted)
    (h : ∀ k, m.get? k = n.get? k) : m = n := by
  induction m generalizing n with
  | nil =>
    cases n with
    | nil => rfl
    | cons e n => simpa [get?] using h e.1
  | cons a m ih =>
    cases n with
    | nil => simpa [get?] using h a.1
    | cons b n =>
      obtain ⟨belowA, restA⟩ := List.pairwise_cons.mp hm
      obtain ⟨belowB, restB⟩ := List.pairwise_cons.mp hn
      -- the smaller of the two first keys would be missing from the other list
      have missing {e e' : κ × α} {l : Keyed κ α} (below : ∀ x ∈ l, e'.1 < x.1) (lt : e.1 < e'.1) :
          get? (e' :: l) e.1 = none :=
        get?_eq_none_of_below fun x hx => by
          rcases List.mem_cons.mp hx with rfl | hx
          · exact lt
          · exact Std.lt_trans lt (below x hx)
      have key : a.1 = b.1 := by
        refine Std.Trichotomous.trichotomous (r := (· < ·)) a.1 b.1 ?_ ?_
        · intro lt
          have := h a.1
          rw [missing belowB lt] at this
          simp [get?] at this
        · intro lt
          have := h b.1
          rw [missing belowA lt] at this
          simp [get?] at this
      have value : a.2 = b.2 := by
        have := h a.1
        simpa [get?, key] using this
      have rest : m = n := ih restA restB fun k => by
        by_cases hk : a.1 = k
        · rw [get?_eq_none_of_below fun e he => hk ▸ belowA e he,
            get?_eq_none_of_below fun e he => hk ▸ key ▸ belowB e he]
        · have := h k
          simpa [get?, hk, key ▸ hk] using this
      rw [rest, Prod.ext key value]

end Lookup

end Keyed

/-! ## Sets -/

namespace KeySet

variable {κ : Type} [DecidableEq κ] [LT κ]

/-- Strictly increasing. -/
def Sorted (s : KeySet κ) : Prop := s.Pairwise (· < ·)

theorem sorted_erase {s : KeySet κ} (h : s.Sorted) (k : κ) : Sorted (s.erase k) :=
  List.Pairwise.filter _ h

variable [DecidableRel (α := κ) (· < ·)]
variable [Trans (α := κ) (β := κ) (γ := κ) (· < ·) (· < ·) (· < ·)]
variable [Std.Trichotomous (α := κ) (· < ·)]

theorem sorted_insert {s : KeySet κ} (h : s.Sorted) (k : κ) : Sorted (s.insert k) := by
  induction s with
  | nil => exact List.pairwise_singleton ..
  | cons a s ih =>
    obtain ⟨below, rest⟩ := List.pairwise_cons.mp h
    simp only [insert]
    split
    · exact h
    · split
      · next hlt =>
        refine List.pairwise_cons.mpr ⟨fun b hb => ?_, h⟩
        rcases List.mem_cons.mp hb with rfl | hb
        · exact hlt
        · exact Std.lt_trans hlt (below b hb)
      · next hne hlt =>
        refine List.pairwise_cons.mpr ⟨fun b hb => ?_, ih rest⟩
        rcases mem_insert.mp hb with rfl | hb
        · exact Classical.byContradiction fun hge =>
            hne (Std.Trichotomous.trichotomous (r := (· < ·)) a b hge hlt)
        · exact below b hb

theorem sorted_insertAll {s : KeySet κ} (h : s.Sorted) (ks : List κ) : Sorted (s.insertAll ks) := by
  induction ks generalizing s with
  | nil => exact h
  | cons k ks ih => exact ih (sorted_insert h k)

end KeySet

end ViewSync
