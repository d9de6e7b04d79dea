import ViewSync.Keyed.Order

/-!
# More laws of keyed lists

What the operations of keyed lists and of sets do to look-ups, as far as the theory of views needs
it.
-/

namespace ViewSync

namespace Keyed

variable {κ α : Type} [DecidableEq κ]

/-! ## Look-ups -/

theorem keys_modify (m : Keyed κ α) (k : κ) (f : α → α) :
    (m.modify k f).map Prod.fst = m.map Prod.fst := by
  simp only [modify, List.map_map]
  exact List.map_congr_left fun e _ => by simp only [Function.comp]; split <;> rfl

theorem get?_modify_self (m : Keyed κ α) (k : κ) (f : α → α) :
    (m.modify k f).get? k = (m.get? k).map f := by
  induction m with
  | nil => rfl
  | cons e m ih =>
      by_cases h : e.1 = k
      · simp [modify, get?, h]
      · simpa [modify, get?, h] using ih

theorem get?_modify_of_ne (m : Keyed κ α) {k j : κ} (f : α → α) (h : j ≠ k) :
    (m.modify k f).get? j = m.get? j := by
  induction m with
  | nil => rfl
  | cons e m ih =>
      by_cases hk : e.1 = k
      · have hj : e.1 ≠ j := fun hj => h (hj.symm.trans hk)
        simpa [modify, get?, hk, hj, Ne.symm h] using ih
      · by_cases hj : e.1 = j
        · simp [modify, get?, hj, h]
        · simpa [modify, get?, hk, hj] using ih

theorem get?_append (m n : Keyed κ α) (k : κ) : get? (m ++ n) k = (m.get? k).or (get? n k) := by
  induction m with
  | nil => rfl
  | cons e m ih => by_cases h : e.1 = k <;> simp [get?, h, ih]

theorem has_of_mem_keys {m : Keyed κ α} {k : κ} (h : k ∈ m.map Prod.fst) : m.has k = true := by
  induction m with
  | nil => simp at h
  | cons e m ih =>
      by_cases he : e.1 = k
      · simp [has, get?, he]
      · rcases List.mem_cons.mp h with hk | hk
        · exact absurd hk.symm he
        · simpa [has, get?, he] using ih hk

theorem mem_of_get? {m : Keyed κ α} {k : κ} {v : α} (h : m.get? k = some v) : (k, v) ∈ m := by
  induction m with
  | nil => simp [get?] at h
  | cons e m ih =>
      by_cases he : e.1 = k
      · simp only [get?, he, if_true, Option.some.injEq] at h
        rw [← he, ← h]
        exact List.mem_cons_self
      · simp only [get?, he, if_false] at h
        exact List.mem_cons_of_mem _ (ih h)

theorem get?_of_not_mem_keys {m : Keyed κ α} {k : κ} (h : k ∉ m.map Prod.fst) :
    m.get? k = none := by
  cases hk : m.get? k with
  | none => rfl
  | some v => exact absurd (List.mem_map_of_mem (f := Prod.fst) (mem_of_get? hk)) h

theorem mem_keys_iff_has {m : Keyed κ α} {k : κ} : k ∈ m.map Prod.fst ↔ m.has k = true := by
  refine ⟨has_of_mem_keys, fun h => ?_⟩
  obtain ⟨v, hv⟩ := Option.isSome_iff_exists.mp h
  exact List.mem_map_of_mem (f := Prod.fst) (mem_of_get? hv)

theorem get?_filter_keys (m : Keyed κ α) (p : κ → Bool) (k : κ) :
    get? (m.filter fun e => p e.1) k = if p k then m.get? k else none := by
  induction m with
  | nil => simp [get?]
  | cons e m ih =>
      rw [List.filter_cons]
      by_cases hp : p e.1
      · rw [if_pos hp]
        by_cases he : e.1 = k
        · simp [get?, he, he ▸ hp]
        · simpa [get?, he] using ih
      · rw [if_neg hp, ih]
        by_cases he : e.1 = k
        · simp [← he, hp]
        · simp [get?, he]

omit [DecidableEq κ] in
theorem nodup_keys [LT κ] [Std.Irrefl (α := κ) (· < ·)] {m : Keyed κ α} (h : m.Sorted) :
    (m.map Prod.fst).Nodup := by
  refine List.pairwise_map.mpr (h.imp ?_)
  intro a b hab heq
  rw [heq] at hab
  exact Std.Irrefl.irrefl (r := (· < ·)) b.1 hab

theorem get?_of_mem {m : Keyed κ α} (hnd : (m.map Prod.fst).Nodup) {k : κ} {v : α}
    (h : (k, v) ∈ m) : m.get? k = some v := by
  induction m with
  | nil => simp at h
  | cons e m ih =>
      obtain ⟨hout, hrest⟩ := List.nodup_cons.mp hnd
      rcases List.mem_cons.mp h with rfl | h
      · simp [get?]
      · have hne : e.1 ≠ k := fun he => hout (he ▸ List.mem_map_of_mem (f := Prod.fst) h)
        simpa [get?, hne] using ih hrest h

theorem erase_of_not_mem_keys {m : Keyed κ α} {k : κ}
    (h : k ∉ m.map Prod.fst) : m.erase k = m := by
  refine List.filter_eq_self.mpr fun e he => ?_
  have hne : e.1 ≠ k := fun heq => h (heq ▸ List.mem_map_of_mem (f := Prod.fst) he)
  simpa using hne

theorem erase_of_get?_eq_none {m : Keyed κ α} {k : κ} (h : m.get? k = none) : m.erase k = m := by
  refine erase_of_not_mem_keys fun hin => ?_
  have hhas := has_of_mem_keys hin
  rw [has, h] at hhas
  cases hhas

/-- One entry goes when a key is erased. -/
theorem perm_cons_erase {m : Keyed κ α} (hnd : (m.map Prod.fst).Nodup) {k : κ} {v : α}
    (h : m.get? k = some v) : ((k, v) :: m.erase k).Perm m := by
  induction m with
  | nil => cases h
  | cons e m ih =>
      obtain ⟨hout, hrest⟩ := List.nodup_cons.mp hnd
      by_cases he : e.1 = k
      · simp only [get?, he, if_true, Option.some.injEq] at h
        obtain ⟨k', v'⟩ := e
        obtain rfl : k' = k := he
        obtain rfl : v' = v := h
        have hsame : erase ((k', v') :: m) k' = m := by
          rw [erase, List.filter_cons_of_neg (by simp)]
          exact erase_of_not_mem_keys hout
        rw [hsame]
      · simp only [get?, he, if_false] at h
        have hskip : erase (e :: m) k = e :: erase m k :=
          List.filter_cons_of_pos (by simpa using he)
        rw [hskip]
        exact (List.Perm.swap e (k, v) _).trans ((ih hrest h).cons e)

omit [DecidableEq κ] in
/-- When one entry alone has something to say, that is all there is. -/
theorem flatMap_eq_of_mem {β : Type} {m : Keyed κ α} (hnd : (m.map Prod.fst).Nodup)
    {f : κ × α → List β} {k : κ} {v : α} (h : (k, v) ∈ m)
    (hrest : ∀ e ∈ m, e.1 ≠ k → f e = []) : m.flatMap f = f (k, v) := by
  induction m with
  | nil => cases h
  | cons e m ih =>
      obtain ⟨hout, hnd⟩ := List.nodup_cons.mp hnd
      rw [List.flatMap_cons]
      rcases List.mem_cons.mp h with rfl | h
      · have hnone : m.flatMap f = [] := by
          refine List.flatMap_eq_nil_iff.mpr fun d hd => hrest d (List.mem_cons_of_mem _ hd) ?_
          have hkey : d.1 ∈ m.map Prod.fst := List.mem_map_of_mem hd
          exact fun heq => hout (heq ▸ hkey)
        rw [hnone, List.append_nil]
      · have hne : e.1 ≠ k := fun heq => hout (heq ▸ List.mem_map_of_mem (f := Prod.fst) h)
        rw [hrest e List.mem_cons_self hne, List.nil_append]
        exact ih hnd h fun d hd => hrest d (List.mem_cons_of_mem _ hd)

/-! ## Look-ups after insertion -/

section Insert

variable [LT κ] [DecidableRel (α := κ) (· < ·)]

theorem get?_insert (m : Keyed κ α) (k j : κ) (v : α) :
    (m.insert k v).get? j = if j = k then some v else m.get? j := by
  split
  · next h => rw [h, get?_insert_self]
  · next h => rw [get?_insert_of_ne m v h]

theorem get?_insertNew (m : Keyed κ α) (k j : κ) (v : α) :
    (m.insertNew k v).get? j = if j = k then some ((m.get? k).getD v) else m.get? j := by
  unfold insertNew has
  cases h : m.get? k with
  | none => simp [get?_insert]
  | some w =>
      by_cases hj : j = k
      · simp [hj, h]
      · simp [hj]

/-- Every entry of a map comes from the list that it was made of. -/
theorem mem_of_mem_ofList {entries : List (κ × α)} {e : κ × α} (h : e ∈ ofList entries) :
    e ∈ entries := by
  have hfold (es : List (κ × α)) (m : Keyed κ α)
      (he : e ∈ es.foldl (fun m e => m.insert e.1 e.2) m) : e ∈ es ∨ e ∈ m := by
    induction es generalizing m with
    | nil => exact .inr he
    | cons d es ih =>
        rcases ih _ he with hin | hin
        · exact .inl (List.mem_cons_of_mem _ hin)
        · rcases mem_of_mem_insert hin with rfl | hin
          · exact .inl List.mem_cons_self
          · exact .inr hin
  rcases hfold entries [] h with hin | hin
  · exact hin
  · cases hin

/-- A map has the value of each key that comes up once in the list it was made of. -/
theorem get?_ofList {entries : List (κ × α)} (hnd : (entries.map Prod.fst).Nodup) (k : κ) :
    (ofList entries).get? k = get? entries k := by
  have hfold (es : List (κ × α)) (hes : (es.map Prod.fst).Nodup) (m : Keyed κ α) :
      get? (es.foldl (fun m e => m.insert e.1 e.2) m) k = (get? es k).or (m.get? k) := by
    induction es generalizing m with
    | nil => rfl
    | cons e es ih =>
        obtain ⟨hout, hrest⟩ := List.nodup_cons.mp hes
        rw [List.foldl_cons, ih hrest, get?_insert]
        by_cases hk : e.1 = k
        · have hnone : get? es k = none := get?_of_not_mem_keys (hk ▸ hout)
          simp [hnone, get?, hk]
        · simp [get?, hk, Ne.symm hk]
  rw [ofList, hfold entries hnd]
  cases get? entries k <;> rfl

end Insert

theorem get?_erase (m : Keyed κ α) (k j : κ) :
    (m.erase k).get? j = if j = k then none else m.get? j := by
  split
  · next h => rw [h, get?_erase_self]
  · next h => rw [get?_erase_of_ne m h]

end Keyed

end ViewSync
