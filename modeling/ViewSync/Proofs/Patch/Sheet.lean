import ViewSync.View.Message
import ViewSync.Proofs.Value.Agreement

/-!
# Objects of positions and sections

Every object in the wire form of a message is put together in one way: values under positions, and
behind them a few sections under names of their own, each of which may be left out. As no name is
the numeral of a position, such an object tells all of its parts apart.
-/

namespace ViewSync

/-! ## Numerals as names -/

theorem toString_nat_inj {i j : Nat} : toString i = toString j ↔ i = j := by
  refine ⟨fun h => ?_, congrArg toString⟩
  have hdigits : Nat.toDigits 10 i = Nat.toDigits 10 j := String.ofList_injective h
  rw [← Nat.ofDigitChars_ten_toDigits (n := i), hdigits, Nat.ofDigitChars_ten_toDigits]

/-- A name that is the numeral of no position. -/
def IsWord (name : String) : Prop := ∀ i : Nat, toString i ≠ name

theorem isWord_of_not_digit {name : String} {c : Char} (hc : c ∈ name.toList)
    (hdigit : c.isDigit = false) : IsWord name := by
  rintro i rfl
  have hmem : c ∈ Nat.toDigits 10 i := by simpa [toString, Nat.repr] using hc
  have hyes : c.isDigit = true := Nat.isDigit_of_mem_toDigits (by decide) (by decide) hmem
  exact Bool.noConfusion (hdigit.symm.trans hyes)

namespace Value

/-! ## Their fields -/

/-- The fields of positions and of sections. -/
def sheetFields (slots : Keyed Nat Value) (sections : Keyed String (Option Value)) :
    List (String × Value) :=
  slots.map (fun e => numbered e.1 e.2) ++ sections.filterMap fun e => e.2.map (Prod.mk e.1)

/-- An object of values by position and of sections by name. -/
def sheet (slots : Keyed Nat Value) (sections : Keyed String (Option Value)) : Value :=
  .obj (sheetFields slots sections)

theorem get?_numbered (slots : Keyed Nat Value) (i : Nat) :
    Keyed.get? (slots.map fun e => numbered e.1 e.2) (toString i) = slots.get? i := by
  induction slots with
  | nil => rfl
  | cons e slots ih =>
      rw [List.map_cons]
      simp only [numbered, Keyed.get?, toString_nat_inj] at ih ⊢
      rw [ih]

theorem get?_numbered_word (slots : Keyed Nat Value) {name : String} (hname : IsWord name) :
    Keyed.get? (slots.map fun e => numbered e.1 e.2) name = none := by
  refine Keyed.get?_of_not_mem_keys fun hin => ?_
  obtain ⟨f, hf, rfl⟩ := List.mem_map.mp hin
  obtain ⟨e, -, rfl⟩ := List.mem_map.mp hf
  exact hname e.1 rfl

/-- The names of the sections that are there. -/
theorem keys_sections (sections : Keyed String (Option Value)) :
    ((sections.filterMap fun e => e.2.map (Prod.mk e.1)).map Prod.fst).Sublist
      (sections.map Prod.fst) := by
  induction sections with
  | nil => exact .slnil
  | cons e sections ih =>
      obtain ⟨name, _ | v⟩ := e
      · exact ih.cons name
      · exact ih.cons_cons name

theorem get?_sections {sections : Keyed String (Option Value)}
    (hnd : (sections.map Prod.fst).Nodup) (name : String) :
    Keyed.get? (sections.filterMap fun e => e.2.map (Prod.mk e.1)) name =
      (sections.get? name).join := by
  induction sections with
  | nil => rfl
  | cons e sections ih =>
      obtain ⟨hout, hnd⟩ := List.nodup_cons.mp hnd
      have hrest := ih hnd
      obtain ⟨other, _ | v⟩ := e
      · by_cases hk : other = name
        · -- a section that is left out is under no other entry
          have hnone := Keyed.get?_of_not_mem_keys (hk ▸ hout)
          rw [hnone] at hrest
          simpa [Keyed.get?, hk] using hrest
        · simpa [Keyed.get?, hk] using hrest
      · by_cases hk : other = name
        · simp [Keyed.get?, hk]
        · simpa [Keyed.get?, hk] using hrest

section Sections

variable {slots : Keyed Nat Value} {sections : Keyed String (Option Value)}

theorem nodup_sheetFields (hslots : slots.Sorted) (hnd : (sections.map Prod.fst).Nodup)
    (hwords : ∀ name ∈ sections.map Prod.fst, IsWord name) :
    ((sheetFields slots sections).map Prod.fst).Nodup := by
  rw [sheetFields, List.map_append, List.nodup_append]
  refine ⟨?_, hnd.sublist (keys_sections sections), ?_⟩
  · rw [List.map_map]
    refine List.pairwise_map.mpr (hslots.imp ?_)
    intro a b hab heq
    exact absurd (toString_nat_inj.mp heq) (Nat.ne_of_lt hab)
  · rintro a ha b hb rfl
    obtain ⟨f, hf, rfl⟩ := List.mem_map.mp ha
    obtain ⟨e, -, rfl⟩ := List.mem_map.mp hf
    exact hwords _ ((keys_sections sections).subset hb) e.1 rfl

theorem get?_sheetFields_position (hwords : ∀ name ∈ sections.map Prod.fst, IsWord name) (i : Nat) :
    Keyed.get? (sheetFields slots sections) (toString i) = slots.get? i := by
  have hnone : Keyed.get? (sections.filterMap fun e => e.2.map (Prod.mk e.1)) (toString i) = none :=
    Keyed.get?_of_not_mem_keys fun hin =>
      hwords _ ((keys_sections sections).subset hin) i rfl
  rw [sheetFields, Keyed.get?_append, get?_numbered, hnone, Option.or_none]

theorem get?_sheetFields_word (hnd : (sections.map Prod.fst).Nodup) {name : String}
    (hname : IsWord name) :
    Keyed.get? (sheetFields slots sections) name = (sections.get? name).join := by
  rw [sheetFields, Keyed.get?_append, get?_numbered_word slots hname, get?_sections hnd,
    Option.none_or]

end Sections

/-! ## Telling the parts apart -/

/-- Options of the same outer kind that answer alike inside are related throughout. -/
theorem rel_of_join {x y : Option (Option Value)} (hsome : x.isSome = y.isSome) :
    Option.Rel (Option.Rel Agrees) x y ↔ Option.Rel Agrees x.join y.join := by
  cases x <;> cases y <;> simp_all

/-- **Objects agree when their positions and their sections do.** -/
theorem agrees_sheet {slots slots' : Keyed Nat Value}
    {sections sections' : Keyed String (Option Value)} (hslots : slots.Sorted)
    (hslots' : slots'.Sorted) (hnames : sections.map Prod.fst = sections'.map Prod.fst)
    (hnd : (sections.map Prod.fst).Nodup) (hwords : ∀ name ∈ sections.map Prod.fst, IsWord name) :
    (sheet slots sections).Agrees (sheet slots' sections') ↔
      Keyed.Related Agrees slots slots' ∧ Keyed.Related (Option.Rel Agrees) sections sections' := by
  have hnd' : (sections'.map Prod.fst).Nodup := hnames ▸ hnd
  have hwords' : ∀ name ∈ sections'.map Prod.fst, IsWord name := hnames ▸ hwords
  have hsome (name : String) : (sections.get? name).isSome = (sections'.get? name).isSome :=
    Bool.eq_iff_iff.mpr (by
      rw [← Keyed.has, ← Keyed.has, ← Keyed.mem_keys_iff_has, hnames, Keyed.mem_keys_iff_has])
  rw [sheet, sheet, agrees_obj (nodup_sheetFields hslots hnd hwords)
    (nodup_sheetFields hslots' hnd' hwords')]
  constructor
  · intro h
    refine ⟨(Keyed.related_iff_get? hslots hslots').mpr fun i => ?_,
      Keyed.related_of_keys hnames hnd fun name => ?_⟩
    · rw [← get?_sheetFields_position hwords i, ← get?_sheetFields_position hwords' i]
      exact h (toString i)
    · rw [rel_of_join (hsome name)]
      by_cases hname : IsWord name
      · rw [← get?_sheetFields_word hnd hname, ← get?_sheetFields_word hnd' hname]
        exact h name
      · rw [Keyed.get?_of_not_mem_keys (mt (hwords name) hname),
          Keyed.get?_of_not_mem_keys (mt (hwords' name) hname)]
        exact .none
  · rintro ⟨hpositions, hsections⟩ name
    by_cases hname : IsWord name
    · rw [get?_sheetFields_word hnd hname, get?_sheetFields_word hnd' hname,
        ← rel_of_join (hsome name)]
      exact hsections.get? name
    · obtain ⟨i, hi⟩ := not_forall.mp hname
      obtain rfl := not_not.mp hi
      rw [get?_sheetFields_position hwords, get?_sheetFields_position hwords']
      exact hpositions.get? i

end Value

end ViewSync
