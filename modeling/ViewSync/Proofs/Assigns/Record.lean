import ViewSync.Proofs.Keyed
import ViewSync.Proofs.Run

/-!
# What the record of writes is worth

Assigns that are *since* a base got their values from it by writes, which the record tells of. Then
a path that the record does not report leads to the same in both. The record compares values as
numbers are compared, so this takes values in which no two that are different count as the same:
that is, values without a negative zero.
-/

namespace ViewSync

/-! ## Values without a negative zero -/

mutual

/-- No negative zero anywhere in a value. -/
def Value.Plain : Value → Prop
  | .num (.float x) => ¬(x.isZero = true ∧ x.isNegative = true)
  | .arr items => Value.PlainItems items
  | .obj fields => Value.PlainFields fields
  | _ => True

/-- No negative zero in any of some items. -/
def Value.PlainItems : List Value → Prop
  | [] => True
  | v :: vs => v.Plain ∧ Value.PlainItems vs

/-- No negative zero in any of some fields. -/
def Value.PlainFields : List (String × Value) → Prop
  | [] => True
  | (_, v) :: fs => v.Plain ∧ Value.PlainFields fs

end

namespace Value

theorem plainItems_iff {items : List Value} : PlainItems items ↔ ∀ v ∈ items, v.Plain := by
  induction items with
  | nil => simp [PlainItems]
  | cons v vs ih => simp [PlainItems, ih]

theorem plainFields_iff {fields : List (String × Value)} :
    PlainFields fields ↔ ∀ f ∈ fields, f.2.Plain := by
  induction fields with
  | nil => simp [PlainFields]
  | cons f fs ih => simp [PlainFields, ih]

end Value

theorem Binary64.eq_of_same {x y : Binary64} (hx : ¬(x.isZero = true ∧ x.isNegative = true))
    (hy : ¬(y.isZero = true ∧ y.isNegative = true)) (h : x.same y = true) : x = y := by
  -- a zero without a sign has no bit set
  have hzero (z : Binary64) (hz : ¬(z.isZero = true ∧ z.isNegative = true))
      (h0 : z.isZero = true) : z.bits.toNat = 0 := by
    have hpos : ¬2 ^ 63 ≤ z.bits.toNat := by
      intro hge
      refine hz ⟨h0, ?_⟩
      simpa [isNegative] using hge
    have hmod : z.bits.toNat % 2 ^ 63 = 0 := of_decide_eq_true h0
    rwa [Nat.mod_eq_of_lt (Nat.lt_of_not_le hpos)] at hmod
  unfold same at h
  rcases Bool.or_eq_true _ _ ▸ h with heq | hboth
  · exact of_decide_eq_true heq
  · obtain ⟨hx0, hy0⟩ := Bool.and_eq_true _ _ ▸ hboth
    have hbits : x.bits = y.bits := by
      refine UInt64.toNat_inj.mp ?_
      rw [hzero x hx hx0, hzero y hy hy0]
    obtain ⟨b⟩ := x
    obtain ⟨c⟩ := y
    rw [show b = c from hbits]

mutual

/-- Values without a negative zero that count as the same are equal. -/
theorem Value.eq_of_same : ∀ v w : Value, v.Plain → w.Plain → v.same w = true → v = w
  | .null, .null, _, _, _ => rfl
  | .bool _, .bool _, _, _, h => by rw [of_decide_eq_true h]
  | .num (.int _), .num (.int _), _, _, h => by rw [of_decide_eq_true h]
  | .num (.float x), .num (.float y), hx, hy, h => by rw [Binary64.eq_of_same hx hy h]
  | .str _, .str _, _, _, h => by rw [of_decide_eq_true h]
  | .arr as, .arr bs, ha, hb, h => by rw [Value.eq_of_sameItems as bs ha hb h]
  | .obj as, .obj bs, ha, hb, h => by rw [Value.eq_of_sameFields as bs ha hb h]

theorem Value.eq_of_sameItems : ∀ vs ws : List Value, Value.PlainItems vs → Value.PlainItems ws →
    Value.sameItems vs ws = true → vs = ws
  | [], [], _, _, _ => rfl
  | v :: vs, w :: ws, hv, hw, h => by
      obtain ⟨hone, hrest⟩ := Bool.and_eq_true _ _ ▸ h
      rw [Value.eq_of_same v w hv.1 hw.1 hone, Value.eq_of_sameItems vs ws hv.2 hw.2 hrest]

theorem Value.eq_of_sameFields : ∀ fs gs : List (String × Value), Value.PlainFields fs →
    Value.PlainFields gs → Value.sameFields fs gs = true → fs = gs
  | [], [], _, _, _ => rfl
  | (m, v) :: fs, (n, w) :: gs, hf, hg, h => by
      obtain ⟨hone, hrest⟩ := Bool.and_eq_true _ _ ▸ h
      obtain ⟨hname, hvalue⟩ := Bool.and_eq_true _ _ ▸ hone
      rw [of_decide_eq_true hname, Value.eq_of_same v w hf.1 hg.1 hvalue,
        Value.eq_of_sameFields fs gs hf.2 hg.2 hrest]

end

/-- What a path leads to inside such a value is such a value. -/
theorem Path.plain_lookup? {p : Path} {v w : Value} (hv : v.Plain) (h : p.lookup? v = some w) :
    w.Plain := by
  have hstep (u : Value) (segment : String) (x : Value) (hu : u.Plain)
      (hd : descend u segment = some x) : x.Plain := by
    unfold descend at hd
    split at hd
    · exact Value.plainFields_iff.mp hu _ (Keyed.mem_of_get? hd)
    · obtain ⟨i, -, hi⟩ := Option.bind_eq_some_iff.mp hd
      exact Value.plainItems_iff.mp hu x (List.mem_of_getElem? hi)
    · cases hd
  obtain ⟨root, below⟩ := p
  change below.foldlM descend v = some w at h
  induction below generalizing v with
  | nil =>
      obtain rfl : v = w := Option.some.inj h
      exact hv
  | cons segment below ih =>
      rw [List.foldlM_cons] at h
      obtain ⟨u, hu, h⟩ := Option.bind_eq_some_iff.mp h
      exact ih (hstep v segment u hv hu) h

namespace Assigns

/-! ## Assigns since a base -/

/-- All values of assigns have a property. -/
def All (Good : Value → Prop) (a : Assigns) : Prop := ∀ name v, a.get? name = some v → Good v

/-- The record tells how assigns came from a base, and no value has a negative zero in it. -/
structure Since (base a : Assigns) : Prop where
  /-- Values are compared as they are. -/
  equal : a.equal = Value.same
  /-- No value has a negative zero in it. -/
  plain : a.All Value.Plain
  /-- A name that is not recorded has the value of the base. -/
  untouched : ∀ name, a.before.get? name = none → a.get? name = base.get? name
  /-- A recorded value is that of the base. -/
  recorded : ∀ name old, a.before.get? name = some (some old) →
    base.get? name = some old ∧ old.Plain
  /-- Every name of the base still has a value. -/
  grown : ∀ name, a.get? name = none → base.get? name = none

/-- A path leads to the same in both. -/
def Agrees (p : Path) (a b : Assigns) : Prop :=
  (a.get? p.root).map p.lookup? = (b.get? p.root).map p.lookup?

namespace Since

variable {base a : Assigns}

theorem settled (h : Since base a) : Since a a.settled where
  equal := h.equal
  plain := h.plain
  untouched _ _ := rfl
  recorded _ _ hold := by cases hold
  grown _ hnone := hnone

theorem empty : Since Assigns.empty Assigns.empty where
  equal := rfl
  plain _ _ h := by cases h
  untouched _ _ := rfl
  recorded _ _ h := by cases h
  grown _ h := h

theorem set (h : Since base a) (name : String) {v : Value} (hv : v.Plain) :
    Since base (a.set name v) := by
  have hget (k : String) : (a.set name v).get? k = if k = name then some v else a.get? k :=
    Keyed.get?_insert a.values name k v
  have hbefore (k : String) : (a.set name v).before.get? k =
      if k = name then some ((a.before.get? name).getD (a.get? name)) else a.before.get? k :=
    Keyed.get?_insertNew a.before name k _
  refine ⟨h.equal, fun k w hw => ?_, fun k hk => ?_, fun k old hold => ?_, fun k hk => ?_⟩
  · rw [hget] at hw
    split at hw
    · obtain rfl := Option.some.inj hw
      exact hv
    · exact h.plain k w hw
  · rw [hbefore] at hk
    split at hk
    · cases hk
    · next hne =>
        rw [hget, if_neg hne]
        exact h.untouched k hk
  · rw [hbefore] at hold
    split at hold
    · next heq =>
        subst heq
        have hold := Option.some.inj hold
        cases hb : a.before.get? k with
        | some before =>
            rw [hb, Option.getD_some] at hold
            exact h.recorded k old (hb.trans (congrArg some hold))
        | none =>
            -- the first write records the value from the base
            rw [hb, Option.getD_none] at hold
            exact ⟨(h.untouched k hb).symm.trans hold, h.plain k old hold⟩
    · exact h.recorded k old hold
  · rw [hget] at hk
    split at hk
    · cases hk
    · exact h.grown k hk

theorem setAll (h : Since base a) {entries : List (String × Value)}
    (hentries : ∀ e ∈ entries, e.2.Plain) : Since base (a.setAll entries) := by
  unfold Assigns.setAll
  induction entries generalizing a with
  | nil => exact h
  | cons e entries ih =>
      exact ih (h.set e.1 (hentries e List.mem_cons_self))
        fun e' he' => hentries e' (List.mem_cons_of_mem _ he')

theorem merge (h : Since base a) {entries : List (String × Value)}
    (hentries : ∀ e ∈ entries, e.2.Plain) : Since base (a.merge entries).1 := by
  induction entries generalizing a with
  | nil => exact h
  | cons e entries ih =>
      have hrest : ∀ e' ∈ entries, e'.2.Plain := fun e' he' =>
        hentries e' (List.mem_cons_of_mem _ he')
      unfold Assigns.merge
      -- a value that counts as the same as the one there is not written
      split
      · exact ih h hrest
      · exact ih (h.set e.1 (hentries e List.mem_cons_self)) hrest

theorem invalidate (h : Since base a) : Since base a.invalidate := by
  -- only names that have no record yet are marked, and a mark keeps no value
  have hbefore (k : String) : ∀ (names : List String) (m : Keyed String (Option Value)),
      (names.foldl (fun m name => m.insertNew name none) m).get? k = m.get? k ∨
        (names.foldl (fun m name => m.insertNew name none) m).get? k = some none := by
    intro names
    induction names with
    | nil => exact fun m => .inl rfl
    | cons name names ih =>
        intro m
        rw [List.foldl_cons]
        rcases ih (m.insertNew name none) with hk | hk
        · rw [hk, Keyed.get?_insertNew]
          split
          · next heq =>
              subst heq
              cases m.get? k with
              | none => exact .inr rfl
              | some old => exact .inl rfl
          · exact .inl rfl
        · exact .inr hk
  refine ⟨h.equal, h.plain, fun k hk => ?_, fun k old hold => ?_, h.grown⟩
  · rcases hbefore k a.values.keys a.before with heq | heq
    · exact h.untouched k (heq.symm.trans hk)
    · cases heq.symm.trans hk
  · rcases hbefore k a.values.keys a.before with heq | heq
    · exact h.recorded k old (heq.symm.trans hold)
    · cases heq.symm.trans hold

/-- **A path that the record does not report leads to what it led to in the base.** -/
theorem agrees (h : Since base a) {p : Path} (hp : a.differsAt p = false) : Agrees p a base := by
  unfold Agrees
  unfold differsAt at hp
  cases hb : a.before.get? p.root with
  | none =>
      -- never written, so it is the value of the base
      rw [h.untouched p.root hb]
  | some before =>
      simp only [hb] at hp
      split at hp
      · cases hp
      · cases before with
        | none =>
            -- a mark without a value reports every path
            cases hp
        | some old =>
            obtain ⟨hbase, hold⟩ := h.recorded p.root old hb
            rw [hbase]
            cases ha : a.get? p.root with
            | none =>
                rw [h.grown p.root ha] at hbase
                cases hbase
            | some v =>
                simp only [ha, Option.bind_some] at hp
                simp only [Option.map_some, Option.some.injEq]
                cases hx : p.lookup? old with
                | none =>
                    cases hy : p.lookup? v with
                    | none => rfl
                    | some y => simp [hx, hy] at hp
                | some x =>
                    cases hy : p.lookup? v with
                    | none => simp [hx, hy] at hp
                    | some y =>
                        simp only [hx, hy, h.equal, Bool.not_eq_false'] at hp
                        have hxp := Path.plain_lookup? hold hx
                        have hyp := Path.plain_lookup? (h.plain p.root v ha) hy
                        rw [Value.eq_of_same x y hxp hyp hp]

end Since

/-! ## Writes -/

/-- A write makes values with a property only, from assigns whose values have it. -/
def Write.Makes (Good : Value → Prop) : Write → Prop
  | .set _ v => Good v
  | .setAll entries => ∀ e ∈ entries, Good e.2
  | .setDefault _ init => ∀ a, a.All Good → Good (init a)
  | .update _ f => ∀ v, Good v → Good (f v)
  | .merge entries => ∀ e ∈ entries, Good e.2
  | .invalidate => True

theorem Since.write {base a : Assigns} (h : Since base a) {w : Write}
    (hw : w.Makes Value.Plain) : Since base (a.write w) := by
  cases w with
  | set name v => exact h.set name hw
  | setAll entries => exact h.setAll hw
  | setDefault name init =>
      change Since base (if a.has name then (a, false) else (a.set name (init a), true)).1
      split
      · exact h
      · exact h.set name (hw a h.plain)
  | update name f =>
      simp only [Assigns.write, Assigns.update, Assigns.get]
      cases hv : a.get? name with
      | none => exact h
      | some v => exact h.set name (hw v (h.plain name v hv))
  | merge entries => exact h.merge hw
  | invalidate => exact h.invalidate

theorem Since.writes {base a : Assigns} (h : Since base a) {ws : List Write}
    (hws : ∀ w ∈ ws, w.Makes Value.Plain) : Since base (ws.foldl Assigns.write a) := by
  induction ws generalizing a with
  | nil => exact h
  | cons w ws ih =>
      have hone := h.write (hws w List.mem_cons_self)
      exact ih hone fun w' hw' => hws w' (List.mem_cons_of_mem _ hw')

end Assigns

end ViewSync
