import ViewSync.Value.Text
import ViewSync.Proofs.Assigns.Changes
import ViewSync.Proofs.Text.Escape

/-!
# Values that count as the same, and their texts

Values that count as the same are equal but for the signs of float zeros, and a zero shows its sign.
So their texts are equal only if the values are: read from the left, the first zero with another
sign is where one text has a sign and the other a digit, and nothing that stands around it can make
up for that.
-/

namespace ViewSync

/-- Two texts have a common beginning, and then different characters. -/
def Forks (l m : List Char) : Prop :=
  ∃ start c d ends fin, c ≠ d ∧ l = start ++ c :: ends ∧ m = start ++ d :: fin

namespace Forks

variable {l m : List Char}

theorem ne (h : Forks l m) : l ≠ m := by
  obtain ⟨start, c, d, ends, fin, hne, rfl, rfl⟩ := h
  intro heq
  exact hne (List.cons.inj (List.append_cancel_left heq)).1

theorem symm (h : Forks l m) : Forks m l := by
  obtain ⟨start, c, d, ends, fin, hne, hl, hm⟩ := h
  exact ⟨start, d, c, fin, ends, Ne.symm hne, hm, hl⟩

/-- Whatever follows. -/
theorem append (h : Forks l m) (r s : List Char) : Forks (l ++ r) (m ++ s) := by
  obtain ⟨start, c, d, ends, fin, hne, rfl, rfl⟩ := h
  exact ⟨start, c, d, ends ++ r, fin ++ s, hne, by simp, by simp⟩

/-- The same in front of both. -/
theorem prepend (h : Forks l m) (front : List Char) : Forks (front ++ l) (front ++ m) := by
  obtain ⟨start, c, d, ends, fin, hne, rfl, rfl⟩ := h
  exact ⟨front ++ start, c, d, ends, fin, hne, by simp, by simp⟩

theorem cons (h : Forks l m) (c : Char) : Forks (c :: l) (c :: m) := h.prepend [c]

end Forks

/-! ## Numbers -/

/-- Of two zeros that are not the same bits, one is negative. -/
theorem Binary64.isNegative_ne {x y : Binary64} (hx : x.isZero = true) (hy : y.isZero = true)
    (hne : x ≠ y) : x.isNegative ≠ y.isNegative := by
  obtain ⟨b⟩ := x
  obtain ⟨c⟩ := y
  have hb : b.toNat % 2 ^ 63 = 0 := of_decide_eq_true hx
  have hc : c.toNat % 2 ^ 63 = 0 := of_decide_eq_true hy
  have hbits : b.toNat ≠ c.toNat := by
    intro heq
    exact hne (by rw [UInt64.toNat_inj.mp heq])
  have hb' : b.toNat < 2 ^ 64 := b.toNat_lt
  have hc' : c.toNat < 2 ^ 64 := c.toNat_lt
  intro hsign
  have hsign' : (2 ^ 63 ≤ b.toNat) ↔ (2 ^ 63 ≤ c.toNat) := decide_eq_decide.mp hsign
  omega

theorem Number.floatText_of_isZero {x : Binary64} (hx : x.isZero = true) :
    floatText x = (if x.isNegative then ['-'] else []) ++ ['0', '.', '0'] := by
  unfold floatText
  rw [if_pos hx]
  cases x.isNegative <;> rfl

/-- Numbers that count as the same are equal, or are the two zeros. -/
theorem Number.eq_or_forks : ∀ {m n : Number}, m.same n = true →
    m = n ∨ Forks m.text.toList n.text.toList
  | .int a, .int b, h => .inl (by rw [of_decide_eq_true h])
  | .float x, .float y, h => by
      rcases Bool.or_eq_true _ _ ▸ h with heq | hzeros
      · exact .inl (by rw [of_decide_eq_true heq])
      · by_cases heq : x = y
        · exact .inl (by rw [heq])
        · right
          obtain ⟨hx, hy⟩ := Bool.and_eq_true _ _ ▸ hzeros
          have hsign := Binary64.isNegative_ne hx hy heq
          have hpart : Forks ['-', '0', '.', '0'] ['0', '.', '0'] :=
            ⟨[], '-', '0', ['0', '.', '0'], ['.', '0'], by decide, rfl, rfl⟩
          simp only [Number.text, String.toList_ofList, floatText_of_isZero hx,
            floatText_of_isZero hy]
          cases hneg : x.isNegative with
          | true =>
              cases hneg' : y.isNegative with
              | true => exact absurd (hneg.trans hneg'.symm) hsign
              | false => exact hpart
          | false =>
              cases hneg' : y.isNegative with
              | true => exact hpart.symm
              | false => exact absurd (hneg.trans hneg'.symm) hsign

/-! ## Values -/

namespace Value

mutual

/-- Values that count as the same are equal, or have texts that fork. -/
theorem eq_or_forks : ∀ {v w : Value}, v.same w = true → v = w ∨ Forks v.chars w.chars
  | .null, .null, _ => .inl rfl
  | .bool _, .bool _, h => .inl (by rw [of_decide_eq_true h])
  | .num m, .num n, h => by
      rcases Number.eq_or_forks h with heq | hforks
      · exact .inl (by rw [heq])
      · right
        rw [chars, chars]
        exact hforks
  | .str _, .str _, h => .inl (by rw [of_decide_eq_true h])
  | .arr vs, .arr ws, h => by
      rcases items_eq_or_forks h with heq | hforks
      · exact .inl (by rw [heq])
      · right
        rw [chars, chars]
        exact (hforks.append _ _).cons _
  | .obj fs, .obj gs, h => by
      rcases fields_eq_or_forks h with heq | hforks
      · exact .inl (by rw [heq])
      · right
        rw [chars, chars]
        exact (hforks.append _ _).cons _

theorem items_eq_or_forks : ∀ {vs ws : List Value}, sameItems vs ws = true →
    vs = ws ∨ Forks (itemChars vs) (itemChars ws)
  | [], [], _ => .inl rfl
  | [v], [w], h => by
      rcases eq_or_forks (Bool.and_eq_true _ _ ▸ h).1 with heq | hforks
      · exact .inl (by rw [heq])
      · right
        rw [itemChars, itemChars]
        exact hforks
  | [_], _ :: _ :: _, h => by cases (Bool.and_eq_true _ _ ▸ h).2
  | _ :: _ :: _, [_], h => by cases (Bool.and_eq_true _ _ ▸ h).2
  | v :: v' :: vs, w :: w' :: ws, h => by
      obtain ⟨hone, hrest⟩ := Bool.and_eq_true _ _ ▸ h
      rw [itemChars, itemChars]
      rcases eq_or_forks hone with rfl | hforks
      · rcases items_eq_or_forks hrest with heq | hforks
        · exact .inl (by rw [heq])
        · exact .inr ((hforks.cons _).prepend _)
      · exact .inr (hforks.append _ _)

theorem fields_eq_or_forks : ∀ {fs gs : List (String × Value)}, sameFields fs gs = true →
    fs = gs ∨ Forks (fieldChars fs) (fieldChars gs)
  | [], [], _ => .inl rfl
  | [(m, v)], [(n, w)], h => by
      obtain ⟨hname, hvalue⟩ := Bool.and_eq_true _ _ ▸ (Bool.and_eq_true _ _ ▸ h).1
      obtain rfl : m = n := of_decide_eq_true hname
      rcases eq_or_forks hvalue with heq | hforks
      · exact .inl (by rw [heq])
      · right
        rw [fieldChars, fieldChars]
        exact (hforks.cons _).prepend _
  | [_], _ :: _ :: _, h => by cases (Bool.and_eq_true _ _ ▸ h).2
  | _ :: _ :: _, [_], h => by cases (Bool.and_eq_true _ _ ▸ h).2
  | (m, v) :: f :: fs, (n, w) :: g :: gs, h => by
      obtain ⟨hone, hrest⟩ := Bool.and_eq_true _ _ ▸ h
      obtain ⟨hname, hvalue⟩ := Bool.and_eq_true _ _ ▸ hone
      obtain rfl : m = n := of_decide_eq_true hname
      rw [fieldChars, fieldChars]
      rcases eq_or_forks hvalue with rfl | hforks
      · rcases fields_eq_or_forks hrest with heq | hforks
        · exact .inl (by rw [heq])
        · exact .inr ((((hforks.cons _).prepend _).cons _).prepend _)
      · exact .inr (((hforks.append _ _).cons _).prepend _)

end

/-- What is shown without quotes has no number in it. -/
theorem chars_eq_of_rawText {v w : Value} (hsame : v.same w = true) (h : v.rawText = w.rawText) :
    v.chars = w.chars := by
  have htext (hv : v.text = w.text) : v.chars = w.chars := String.ofList_injective hv
  cases v with
  | null => cases w with
    | null => rfl
    | _ => cases hsame
  | str s => cases w with
    | str t => rw [of_decide_eq_true hsame]
    | _ => cases hsame
  | _ => cases w with
    | null => cases hsame
    | str t => cases hsame
    | _ => exact htext h

/-- What counts as the same and is shown alike is equal. -/
theorem safeText_eq_iff {v w : Value} (hsame : v.same w = true) (escaped : Bool) :
    v.safeText escaped = w.safeText escaped ↔ v = w := by
  constructor
  · intro h
    have hraw : v.rawText = w.rawText := by
      cases escaped with
      | true => exact Text.escape_inj h
      | false => exact h
    rcases eq_or_forks hsame with heq | hforks
    · exact heq
    · exact absurd (chars_eq_of_rawText hsame hraw) hforks.ne
  · intro h
    rw [h]

end Value

namespace Assigns

/-! ## What assigns keep from a page -/

theorem SameAt.safeText_eq_iff {p : Path} {a b : Assigns} (h : SameAt p a b) (escaped : Bool) :
    (a.lookup? p).map (Value.safeText escaped) = (b.lookup? p).map (Value.safeText escaped) ↔
      a.lookup? p = b.lookup? p := by
  unfold SameAt at h
  generalize a.lookup? p = v at h ⊢
  generalize b.lookup? p = w at h ⊢
  cases h with
  | some hsame => simp [Value.safeText_eq_iff hsame escaped]
  | none => exact iff_of_true rfl rfl

/-- A value that counts as the same as the one there is not merged in. -/
theorem merge_of_hasEqual {a : Assigns} {name : String} {v : Value} (h : a.hasEqual name v = true) :
    (a.merge [(name, v)]).1 = a := by
  unfold merge
  rw [if_pos h]
  rfl

/-- **What counts as the same is shown alike only if it is the same.** Under equality of values, two
values that count as the same leave the same text in a page just if they are one value, escaped or
not. So a value that is not merged in, and a path that is not reported after whatever history, leave
the page with another text than is due just if there is another value. -/
theorem safeText_eq_iff_of_equal {a : Assigns} (hequal : a.equal = Value.same) (escaped : Bool) :
    (∀ v w, a.equal v w = true → (v.safeText escaped = w.safeText escaped ↔ v = w)) ∧
      (∀ name old v, a.get? name = some old → a.hasEqual name v = true →
        (a.merge [(name, v)]).1 = a ∧ (old.safeText escaped = v.safeText escaped ↔ old = v)) ∧
      ∀ (ws : List Write) (p : Path), (ws.foldl write a.settled).differsAt p = false →
        ((a.lookup? p).map (Value.safeText escaped) =
            ((ws.foldl write a.settled).lookup? p).map (Value.safeText escaped) ↔
          a.lookup? p = (ws.foldl write a.settled).lookup? p) := by
  refine ⟨?_, ?_, ?_⟩
  · intro v w hsame
    rw [hequal] at hsame
    exact Value.safeText_eq_iff hsame escaped
  · intro name old v hold hhas
    refine ⟨merge_of_hasEqual hhas, ?_⟩
    unfold hasEqual at hhas
    rw [hold, hequal] at hhas
    exact Value.safeText_eq_iff hhas escaped
  · intro ws p hp
    have htold := (Recounts.settled p.root a).writes ws
    have hsame := (htold.unreported (htold.equal.trans hequal) hp).2
    exact hsame.safeText_eq_iff escaped

/-- The zero of a sign. -/
def zero (negative : Bool) : Value := .num (.float (Binary64.ofMagnitude negative 0))

/-- An account with nothing in it. -/
def account : Assigns := ofFields [("account", .obj [("balance", zero false)])]

/-- A balance of nothing is written as a debt of nothing. -/
def owing : List Write := [.set "account" (.obj [("balance", zero true)])]

/-- Neither the merge nor the path tells that a sign has come up. -/
theorem account_owing :
    (account.merge [("account", .obj [("balance", zero true)])]).1 = account ∧
      (owing.foldl write account.settled).differsAt ⟨"account", ["balance"]⟩ = false ∧
      (account.lookup? ⟨"account", ["balance"]⟩).map (Value.safeText true) ≠
        ((owing.foldl write account.settled).lookup? ⟨"account", ["balance"]⟩).map
          (Value.safeText true) := by
  obtain ⟨-, hmerge, hpath⟩ := safeText_eq_iff_of_equal (a := account) rfl true
  have hzeros : zero false ≠ zero true := by
    intro heq
    have hbits := Number.float.inj (Value.num.inj heq)
    exact absurd (congrArg Binary64.isNegative hbits) (by decide)
  have hquiet : (owing.foldl write account.settled).differsAt ⟨"account", ["balance"]⟩ = false := by
    decide
  refine ⟨(hmerge "account" _ _ rfl (by decide)).1, hquiet, ?_⟩
  rw [ne_eq, hpath owing _ hquiet]
  intro heq
  exact hzeros (Option.some.inj heq)

/-- The two zeros count as the same, and one of them has a sign to show. -/
theorem zero_text :
    (zero false).same (zero true) = true ∧ (zero false).safeText true = "0.0" ∧
      (zero true).safeText true = "-0.0" ∧
      ¬∀ v w : Value, v.same w = true → ∀ escaped, v.safeText escaped = w.safeText escaped := by
  have hsame : (zero false).same (zero true) = true := by decide
  have hplus : (zero false).safeText true = "0.0" := by decide
  have hminus : (zero true).safeText true = "-0.0" := by decide
  refine ⟨hsame, hplus, hminus, ?_⟩
  intro hall
  have heq := hall _ _ hsame true
  rw [hplus, hminus] at heq
  exact absurd heq (by decide)

end Assigns

end ViewSync
