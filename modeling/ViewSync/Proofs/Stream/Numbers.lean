import ViewSync.Proofs.Stream.Mirror

/-!
# Streams by number

A client knows streams by their numbers. No two streams of a view have the same one, whatever was
done to them; and a flush carries the number of its stream, so that it can be told from all others.
-/

namespace ViewSync.Streams

/-- Streams have names of their own, and numbers of their own that were given out already. -/
structure Numbered (s : Streams) : Prop where
  /-- No two streams have one name. -/
  names : (s.all.map Prod.fst).Nodup
  /-- Every number was given out. -/
  below : ∀ e ∈ s.all, e.2.number < s.nextNumber
  /-- No two streams have one number. -/
  apart : (s.all.map fun e => e.2.number).Nodup

variable {s : Streams}

theorem numbers_modify (s : Streams) (name : String) {f : Stream → Stream}
    (hf : ∀ t, (f t).number = t.number) :
    ((s.modify name f).all.map fun e => e.2.number) = s.all.map fun e => e.2.number := by
  simp only [modify, Keyed.modify, List.map_map]
  refine List.map_congr_left fun e _ => ?_
  simp only [Function.comp]
  split
  · exact hf e.2
  · rfl

theorem number_queue (t : Stream) (c : Stream.KeyedChange) : (t.queue c).number = t.number := by
  cases c with
  | inserts is =>
      change (is.foldl Stream.queueInsert t).number = t.number
      induction is generalizing t with
      | nil => rfl
      | cons i is ih => exact ih (t.queueInsert i)
  | delete key => rfl
  | reset is => rfl

namespace Numbered

theorem modify (hs : s.Numbered) (name : String) {f : Stream → Stream}
    (hf : ∀ t, (f t).number = t.number) : (s.modify name f).Numbered := by
  refine ⟨?_, fun e he => ?_, ?_⟩
  · rw [names_modify]
    exact hs.names
  · have hin : e.2.number ∈ (s.modify name f).all.map fun e => e.2.number :=
      List.mem_map_of_mem (f := fun e : String × Stream => e.2.number) he
    rw [numbers_modify s name hf] at hin
    obtain ⟨d, hd, heq⟩ := List.mem_map.mp hin
    exact heq ▸ hs.below d hd
  · rw [numbers_modify s name hf]
    exact hs.apart

theorem keyBy (hs : s.Numbered) (name : String) (keyOf : Value → Value) :
    (s.keyBy name keyOf).Numbered := by
  have hnames := names_keyBy hs.names name keyOf
  by_cases hhas : s.has name = true
  · have hkeyBy : s.keyBy name keyOf = s.modify name fun t => { t with keyOf := keyOf } :=
      if_pos hhas
    rw [hkeyBy]
    exact hs.modify name fun _ => rfl
  · have hkeyBy : s.keyBy name keyOf =
        { all := s.all ++ [(name, { number := s.nextNumber, keyOf })]
          nextNumber := s.nextNumber + 1 } := if_neg hhas
    rw [hkeyBy] at hnames ⊢
    refine ⟨hnames, fun e he => ?_, ?_⟩
    · rcases List.mem_append.mp he with he | he
      · exact Nat.lt_succ_of_lt (hs.below e he)
      · obtain rfl := List.mem_singleton.mp he
        exact Nat.lt_succ_self _
    · -- the new number is above all others
      rw [List.map_append]
      refine List.nodup_append_comm.mp (List.nodup_cons.mpr ⟨fun hin => ?_, hs.apart⟩)
      obtain ⟨e, he, heq⟩ := List.mem_map.mp hin
      exact Nat.lt_irrefl _ (heq ▸ hs.below e he)

theorem change (hs : s.Numbered) {s' : Streams} {name : String} {c : Stream.Change}
    (h : s.change name c = .ok s') : s'.Numbered := by
  unfold Streams.change at h
  split at h
  · cases h
  · next keyed _ =>
      obtain rfl := Except.ok.inj h
      refine Numbered.modify ?_ name fun t => number_queue t keyed
      split
      · exact hs
      · exact hs.keyBy name _

theorem adopt (hs : s.Numbered) (held : List (String × List String)) :
    (s.adopt held).Numbered := by
  unfold Streams.adopt
  induction held generalizing s with
  | nil => exact hs
  | cons e held ih => exact ih (hs.modify e.1 fun _ => rfl)

theorem clear (s : Streams) : s.clear.Numbered :=
  ⟨List.nodup_nil, List.forall_mem_nil _, List.nodup_nil⟩

theorem eq_of_number_eq (hs : s.Numbered) {name name' : String} {t t' : Stream}
    (ht : s.get? name = some t) (ht' : s.get? name' = some t') (heq : t'.number = t.number) :
    name' = name := by
  have hin := Keyed.mem_of_get? ht
  have hin' := Keyed.mem_of_get? ht'
  exact congrArg Prod.fst (List.inj_on_of_nodup_map hs.apart hin' hin heq)

end Numbered

/-! ## Plans -/

/-- A stream with a queue has its plan among all plans. -/
theorem get?_plans (hs : (s.all.map Prod.fst).Nodup) {name : String} {t : Stream}
    (ht : s.get? name = some t) (hwait : t.isWaiting = true) :
    Keyed.get? s.plans name = some (t.plan name) := by
  refine Keyed.get?_of_mem (hs.sublist (names_plans s)) ?_
  exact List.mem_map.mpr
    ⟨(name, t), List.mem_filter.mpr ⟨Keyed.mem_of_get? ht, hwait⟩, rfl⟩

/-- Adopting keys of some streams, of each once. -/
theorem get?_adopt {held : List (String × List String)} (hnd : (held.map Prod.fst).Nodup)
    (name : String) : (s.adopt held).get? name =
      (s.get? name).map fun t => (Keyed.get? held name).elim t t.adopt := by
  unfold Streams.adopt
  induction held generalizing s with
  | nil =>
      rw [List.foldl_nil]
      cases s.get? name <;> rfl
  | cons e held ih =>
      obtain ⟨hout, hrest⟩ := List.nodup_cons.mp hnd
      rw [List.foldl_cons, ih hrest]
      by_cases hname : e.1 = name
      · have hnone : Keyed.get? held name = none := Keyed.get?_of_not_mem_keys (hname ▸ hout)
        rw [hnone, ← hname, get?_modify_self]
        cases s.get? e.1 <;> simp [Keyed.get?]
      · rw [get?_modify_of_ne _ _ (Ne.symm hname)]
        simp only [Keyed.get?, if_neg hname]

end ViewSync.Streams
