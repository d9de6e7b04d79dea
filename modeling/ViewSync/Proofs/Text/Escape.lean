import Mathlib.Data.List.Infix
import ViewSync.Text.Escape

/-!
# Escaping loses nothing

Every entity begins with an ampersand, and an ampersand of the text becomes an entity itself, so
that reading the entities back leaves nothing to guess. For the same reason nothing is left in
escaped text that HTML would read as anything but text.
-/

namespace ViewSync.Text

variable {c : Char}

theorem unescapeChars_cons (h : c ≠ '&') (cs : List Char) :
    unescapeChars (c :: cs) = c :: unescapeChars cs := by
  conv => lhs; unfold unescapeChars
  split
  case h_6 heq =>
    obtain ⟨rfl, rfl⟩ := List.cons.inj heq
    rfl
  case h_7 heq => cases heq
  all_goals
    next heq => exact absurd (List.cons.inj heq).1 h

/-- A character that has no entity stands for itself. -/
theorem escapeChar_of_ne (hamp : c ≠ '&') (hlt : c ≠ '<') (hgt : c ≠ '>') (hquot : c ≠ '"')
    (hapos : c ≠ '\'') : escapeChar c = [c] := by
  unfold escapeChar
  split
  · exact absurd rfl hamp
  · exact absurd rfl hlt
  · exact absurd rfl hgt
  · exact absurd rfl hquot
  · exact absurd rfl hapos
  · rfl

/-- The entity of one character is read back whatever follows it. -/
theorem unescapeChars_escapeChar (c : Char) (cs : List Char) :
    unescapeChars (escapeChar c ++ cs) = c :: unescapeChars cs := by
  by_cases hamp : c = '&'
  · subst hamp; rfl
  by_cases hlt : c = '<'
  · subst hlt; rfl
  by_cases hgt : c = '>'
  · subst hgt; rfl
  by_cases hquot : c = '"'
  · subst hquot; rfl
  by_cases hapos : c = '\''
  · subst hapos; rfl
  rw [escapeChar_of_ne hamp hlt hgt hquot hapos, List.singleton_append, unescapeChars_cons hamp]

theorem unescapeChars_flatMap (cs : List Char) : unescapeChars (cs.flatMap escapeChar) = cs := by
  induction cs with
  | nil => rfl
  | cons c cs ih => rw [List.flatMap_cons, unescapeChars_escapeChar, ih]

/-- **Escaped text is read back as it was.** -/
theorem unescape_escape (s : String) : unescape (escape s) = s := by
  unfold unescape escape
  rw [String.toList_ofList, unescapeChars_flatMap, String.ofList_toList]

/-- No two texts are escaped alike. -/
theorem escape_inj {s t : String} (h : escape s = escape t) : s = t := by
  rw [← unescape_escape s, ← unescape_escape t, h]

/-! ## Text that is nothing but text -/

/-- The characters that open and close tags and the values of attributes. -/
def markup : List Char := ['<', '>', '"', '\'']

/-- What is written for the characters that have a meaning in HTML. -/
def entities : List String := ["&amp;", "&lt;", "&gt;", "&quot;", "&#39;"]

/-- There is no markup in a text, and wherever an ampersand stands in it, an entity begins. -/
structure Inert (s : String) : Prop where
  /-- No character of it is markup. -/
  plain : ∀ c ∈ s.toList, c ∉ markup
  /-- An ampersand starts an entity. -/
  entity : ∀ rest, '&' :: rest <:+ s.toList → ∃ e ∈ entities, e.toList <+: '&' :: rest

instance (s : String) : Decidable (Inert s) :=
  decidable_of_iff ((s.toList.all (· ∉ markup) && s.toList.tails.all fun t =>
      t.head? ≠ some '&' || entities.any (·.toList.isPrefixOf t)) = true) <| by
    simp only [Bool.and_eq_true, List.all_eq_true, Bool.or_eq_true, decide_eq_true_eq,
      List.any_eq_true, List.isPrefixOf_iff_prefix, List.mem_tails]
    constructor
    · rintro ⟨hplain, hentity⟩
      exact ⟨hplain, fun rest hrest => (hentity _ hrest).resolve_left fun hne => hne rfl⟩
    · intro h
      refine ⟨h.plain, fun t ht => ?_⟩
      by_cases hhead : t.head? = some '&'
      · obtain ⟨rest, rfl⟩ := List.head?_eq_some_iff.mp hhead
        exact .inr (h.entity rest ht)
      · exact .inl hhead

/-- No entity has markup in it, or another ampersand than its first character. -/
theorem exists_of_entity {e : String} (he : e ∈ entities) :
    (∀ c ∈ e.toList, c ∉ markup) ∧ ∃ name, e.toList = '&' :: name ∧ '&' ∉ name := by
  have hall : entities.all (fun e => e.toList.all (· ∉ markup) &&
      (e.toList.head? = some '&' && '&' ∉ e.toList.tail)) = true := by decide
  simp only [List.all_eq_true, Bool.and_eq_true, decide_eq_true_eq] at hall
  obtain ⟨hplain, hhead, hname⟩ := hall e he
  obtain ⟨name, hcons⟩ := List.head?_eq_some_iff.mp hhead
  rw [hcons] at hname
  exact ⟨hplain, name, hcons, hname⟩

/-- A character is written as an entity, or has no meaning in HTML. -/
theorem escapeChar_cases (c : Char) :
    (∃ e ∈ entities, escapeChar c = e.toList) ∨ (c ≠ '&' ∧ c ∉ markup ∧ escapeChar c = [c]) := by
  by_cases hc : c ∈ '&' :: markup
  · left
    have hall : ('&' :: markup).all (fun c => entities.any (escapeChar c = ·.toList)) = true := by
      decide
    simp only [List.all_eq_true, List.any_eq_true, decide_eq_true_eq] at hall
    exact hall c hc
  · right
    obtain ⟨hamp, hmarkup⟩ := not_or.mp (List.mem_cons.not.mp hc)
    have hne {d : Char} (hd : d ∈ markup) : c ≠ d := fun heq => hmarkup (heq ▸ hd)
    exact ⟨hamp, hmarkup, escapeChar_of_ne hamp (hne (by decide)) (hne (by decide))
      (hne (by decide)) (hne (by decide))⟩

/-- What begins with a character that is not in a list begins after it. -/
theorem suffix_of_notMem {before l rest : List Char} (hc : c ∉ before)
    (h : c :: rest <:+ before ++ l) : c :: rest <:+ l := by
  induction before with
  | nil => exact h
  | cons d before ih =>
      obtain ⟨hne, hc⟩ := not_or.mp (List.mem_cons.not.mp hc)
      rcases List.suffix_cons_iff.mp h with heq | h
      · exact absurd (List.cons.inj heq).1 hne
      · exact ih hc h

theorem entity_flatMap {cs rest : List Char} (h : '&' :: rest <:+ cs.flatMap escapeChar) :
    ∃ e ∈ entities, e.toList <+: '&' :: rest := by
  induction cs with
  | nil => cases List.suffix_nil.mp h
  | cons c cs ih =>
      rw [List.flatMap_cons] at h
      rcases escapeChar_cases c with ⟨e, he, hwritten⟩ | ⟨hamp, -, hwritten⟩
      · obtain ⟨-, name, hcons, hname⟩ := exists_of_entity he
        rw [hwritten, hcons, List.cons_append] at h
        rcases List.suffix_cons_iff.mp h with heq | h
        · refine ⟨e, he, ?_⟩
          rw [heq, hcons]
          exact ⟨_, rfl⟩
        · exact ih (suffix_of_notMem hname h)
      · rw [hwritten] at h
        exact ih (suffix_of_notMem (List.mem_singleton.not.mpr hamp.symm) h)

/-- **Escaped text is nothing but text.** -/
theorem inert_escape (s : String) : Inert (escape s) where
  plain c hc := by
    rw [escape, String.toList_ofList] at hc
    obtain ⟨d, -, hc⟩ := List.mem_flatMap.mp hc
    rcases escapeChar_cases d with ⟨e, he, hwritten⟩ | ⟨-, hplain, hwritten⟩
    · exact (exists_of_entity he).1 c (hwritten ▸ hc)
    · rw [hwritten] at hc
      obtain rfl := List.mem_singleton.mp hc
      exact hplain
  entity rest h := by
    rw [escape, String.toList_ofList] at h
    exact entity_flatMap h

/-- An entity in the text is not taken for one, and a bare ampersand is not left alone. -/
example : escape "a &lt; b" = "a &amp;lt; b" ∧ ¬Inert "a & b" := by decide

end ViewSync.Text
