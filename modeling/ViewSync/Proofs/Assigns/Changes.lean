import ViewSync.Proofs.Assigns.Record

/-!
# What the record tells of a history

A *history* is the list of writes since assigns were settled. The record keeps one value for each
name, the one before the first write, and a mark without a value where every name was invalidated.
That is enough: a name is on record just if the history wrote it or marked it, and a path into a
name that was there and never marked is reported just if its name was written and it leads to
something else now. Whatever is not reported is as it was.

The invariant speaks of one name. It relates the base, which is what was settled, to what has become
of it, given whether the history has written the name and whether it has marked it.
-/

namespace ViewSync

theorem Keyed.get?_foldl_insertNew {κ α : Type} [DecidableEq κ] [LT κ]
    [DecidableRel (α := κ) (· < ·)] (v : α) (k : κ) : ∀ (ks : List κ) (m : Keyed κ α),
    get? (ks.foldl (fun m k => m.insertNew k v) m) k =
      if k ∈ ks then some ((m.get? k).getD v) else m.get? k
  | [], m => by simp
  | j :: ks, m => by
      rw [List.foldl_cons, get?_foldl_insertNew v k ks, get?_insertNew]
      by_cases hj : k = j
      · simp [hj]
      · simp [hj]

namespace Assigns

/-! ## Histories -/

/-- Whether a write puts a value under a name. -/
def Write.writes (name : String) (a : Assigns) : Write → Bool
  | .set n _ => n = name
  | .setAll entries => entries.any fun e => e.1 = name
  | .setDefault n _ => n = name && !a.has n
  | .update n _ => n = name && a.has n
  | .merge entries => entries.any fun e => e.1 = name && !a.hasEqual name e.2
  | .invalidate => false

/-- Whether a write marks a name, as one that has a value. -/
def Write.marks (name : String) (a : Assigns) : Write → Bool
  | .invalidate => a.has name
  | _ => false

/-- Whether a history puts a value under a name. -/
def wrote (name : String) : Assigns → List Write → Bool
  | _, [] => false
  | a, w :: ws => w.writes name a || wrote name (a.write w) ws

/-- Whether a history marks a name, as one that has a value. -/
def marked (name : String) : Assigns → List Write → Bool
  | _, [] => false
  | a, w :: ws => w.marks name a || marked name (a.write w) ws

/-! ## One write -/

/-- What is known of a name that a history has written, or marked, or left alone. -/
structure Recounts (name : String) (base : Assigns) (written mark : Bool) (a : Assigns) : Prop where
  /-- A name has no entry in the record exactly if it was left alone. -/
  clean : a.before.get? name = none ↔ written = false ∧ mark = false
  /-- What was not written has the value that it had. -/
  kept : written = false → a.get? name = base.get? name
  /-- What was written has a value. -/
  present : written = true → a.get? name ≠ none
  /-- The record has the value from before the first write. -/
  first : ∀ old, a.before.get? name = some (some old) → base.get? name = some old
  /-- A name is recorded without a value if it had none, or if all were marked. -/
  blank : a.before.get? name = some none → mark = true ∨ base.get? name = none
  /-- Values are compared as before. -/
  equal : a.equal = base.equal

namespace Recounts

variable {name : String} {base a : Assigns} {written mark : Bool}

theorem settled (name : String) (a : Assigns) :
    Recounts name a.settled false false a.settled where
  clean := ⟨fun _ => ⟨rfl, rfl⟩, fun _ => rfl⟩
  kept _ := rfl
  present h := by cases h
  first _ h := by cases h
  blank h := by cases h
  equal := rfl

theorem set (h : Recounts name base written mark a) (n : String) (v : Value) :
    Recounts name base (written || decide (n = name)) mark (a.set n v) := by
  by_cases hn : n = name
  · subst hn
    have hget : (a.set n v).get? n = some v := get?_set_self a n v
    have hbefore : (a.set n v).before.get? n = some ((a.before.get? n).getD (a.get? n)) :=
      (Keyed.get?_insertNew a.before n n _).trans (if_pos rfl)
    rw [decide_eq_true rfl, Bool.or_true]
    refine ⟨?_, fun hw => (by cases hw), fun _ => ?_, fun old hold => ?_, fun hblank => ?_,
      h.equal⟩
    · rw [hbefore]
      simp
    · rw [hget]
      exact Option.some_ne_none v
    · rw [hbefore] at hold
      cases hb : a.before.get? n with
      | some before =>
          rw [hb, Option.getD_some] at hold
          exact h.first old (hb.trans hold)
      | none =>
          -- the first write records the value of the base
          rw [hb, Option.getD_none] at hold
          exact (h.kept (h.clean.mp hb).1).symm.trans (Option.some.inj hold)
    · rw [hbefore] at hblank
      cases hb : a.before.get? n with
      | some before =>
          rw [hb, Option.getD_some] at hblank
          exact h.blank (hb.trans hblank)
      | none =>
          rw [hb, Option.getD_none] at hblank
          exact .inr ((h.kept (h.clean.mp hb).1).symm.trans (Option.some.inj hblank))
  · have hget : (a.set n v).get? name = a.get? name := get?_set_of_ne a v (Ne.symm hn)
    have hbefore : (a.set n v).before.get? name = a.before.get? name :=
      (Keyed.get?_insertNew a.before n name _).trans (if_neg (Ne.symm hn))
    rw [decide_eq_false hn, Bool.or_false]
    constructor
    · rw [hbefore]
      exact h.clean
    · rw [hget]
      exact h.kept
    · rw [hget]
      exact h.present
    · rw [hbefore]
      exact h.first
    · rw [hbefore]
      exact h.blank
    · exact h.equal

theorem setAll (h : Recounts name base written mark a) (entries : List (String × Value)) :
    Recounts name base (written || entries.any fun e => e.1 = name) mark (a.setAll entries) := by
  induction entries generalizing a written with
  | nil =>
      rw [List.any_nil, Bool.or_false]
      exact h
  | cons e entries ih =>
      have hrest := ih (h.set e.1 e.2)
      rw [Bool.or_assoc] at hrest
      exact hrest

/-- Each entry is compared with the value that is there, and it is the value from before the merge
until one of them is written. -/
theorem merge (h : Recounts name base written mark a) (entries : List (String × Value)) :
    Recounts name base
      (written || entries.any fun e => e.1 = name && !a.hasEqual name e.2) mark
      (a.merge entries).1 := by
  induction entries generalizing a written with
  | nil =>
      rw [List.any_nil, Bool.or_false]
      exact h
  | cons e entries ih =>
      obtain ⟨n, v⟩ := e
      rw [List.any_cons]
      unfold Assigns.merge
      by_cases hequal : a.hasEqual n v = true
      · rw [if_pos hequal]
        have hskip : (decide (n = name) && !a.hasEqual name v) = false := by
          by_cases hn : n = name
          · rw [← hn, hequal, Bool.not_true, Bool.and_false]
          · rw [decide_eq_false hn, Bool.false_and]
        rw [hskip, Bool.false_or]
        exact ih h
      · rw [if_neg hequal]
        have hrest := ih (h.set n v)
        rw [Bool.or_assoc] at hrest
        by_cases hn : n = name
        · subst hn
          have hdiffers : a.hasEqual n v = false := Bool.not_eq_true _ ▸ hequal
          rw [decide_eq_true rfl, Bool.true_or] at hrest
          rw [hdiffers, Bool.not_false, decide_eq_true rfl, Bool.and_true, Bool.true_or]
          exact hrest
        · have hsame (w : Value) : (a.set n v).hasEqual name w = a.hasEqual name w := by
            unfold hasEqual
            rw [get?_set_of_ne a v (Ne.symm hn)]
            rfl
          simp only [hsame, decide_eq_false hn, Bool.false_or, Bool.false_and] at hrest ⊢
          exact hrest

theorem invalidate (h : Recounts name base written mark a) :
    Recounts name base written (mark || a.has name) a.invalidate := by
  have hbefore : a.invalidate.before.get? name =
      if name ∈ a.values.keys then some ((a.before.get? name).getD none)
      else a.before.get? name :=
    Keyed.get?_foldl_insertNew none name a.values.keys a.before
  cases hhas : a.has name with
  | false =>
      have hout : name ∉ a.values.keys := by
        intro hin
        rw [Assigns.has, Keyed.mem_keys_iff_has.mp hin] at hhas
        cases hhas
      rw [if_neg hout] at hbefore
      rw [Bool.or_false]
      refine ⟨?_, h.kept, h.present, ?_, ?_, h.equal⟩
      · rw [hbefore]
        exact h.clean
      · rw [hbefore]
        exact h.first
      · rw [hbefore]
        exact h.blank
  | true =>
      have hin : name ∈ a.values.keys := Keyed.mem_keys_iff_has.mpr hhas
      rw [if_pos hin] at hbefore
      rw [Bool.or_true]
      refine ⟨?_, h.kept, h.present, fun old hold => ?_, fun _ => .inl rfl, h.equal⟩
      · rw [hbefore]
        simp
      · -- a name that is on record already keeps what stands there
        rw [hbefore] at hold
        cases hb : a.before.get? name with
        | none =>
            rw [hb] at hold
            cases hold
        | some before =>
            rw [hb, Option.getD_some] at hold
            exact h.first old (hb.trans hold)

/-- **One write.** -/
theorem write (h : Recounts name base written mark a) (w : Write) :
    Recounts name base (written || w.writes name a) (mark || w.marks name a) (a.write w) := by
  cases w with
  | set n v =>
      change Recounts name base _ (mark || false) (a.set n v)
      rw [Bool.or_false]
      exact h.set n v
  | setAll entries =>
      change Recounts name base _ (mark || false) (a.setAll entries)
      rw [Bool.or_false]
      exact h.setAll entries
  | setDefault n init =>
      change Recounts name base (written || (decide (n = name) && !a.has n)) (mark || false)
        (if a.has n then (a, false) else (a.set n (init a), true)).1
      rw [Bool.or_false]
      cases a.has n with
      | true => simpa using h
      | false => simpa using h.set n (init a)
  | update n f =>
      change Recounts name base (written || (decide (n = name) && (a.get? n).isSome))
        (mark || false) _
      rw [Bool.or_false]
      simp only [Assigns.write, Assigns.update, Assigns.get]
      cases a.get? n with
      | none => simpa [Except.map] using h
      | some v => simpa [Except.map] using h.set n (f v)
  | merge entries =>
      change Recounts name base _ (mark || false) (a.merge entries).1
      rw [Bool.or_false]
      exact h.merge entries
  | invalidate =>
      change Recounts name base (written || false) _ a.invalidate
      rw [Bool.or_false]
      exact h.invalidate

/-- **Any history.** -/
theorem writes (h : Recounts name base written mark a) (ws : List Write) :
    Recounts name base (written || wrote name a ws) (mark || marked name a ws)
      (ws.foldl Assigns.write a) := by
  induction ws generalizing a written mark with
  | nil =>
      rw [wrote, marked, Bool.or_false, Bool.or_false]
      exact h
  | cons w ws ih =>
      have hrest := ih (h.write w)
      rw [Bool.or_assoc, Bool.or_assoc] at hrest
      exact hrest

/-- A name is on record if it was written or marked. -/
theorem isWritten_iff (h : Recounts name base written mark a) :
    a.isWritten name = true ↔ written = true ∨ mark = true := by
  rw [isWritten, Keyed.has, Option.isSome_iff_ne_none, ne_eq, h.clean]
  cases written <;> cases mark <;> decide

end Recounts

/-! ## What is reported -/

/-- What a path leads to, if it leads anywhere. -/
def lookup? (a : Assigns) (p : Path) : Option Value := (a.get? p.root).bind p.lookup?

/-- A path leads to equal values in both, or to nothing in both. -/
def SameAt (p : Path) (a b : Assigns) : Prop :=
  Option.Rel (fun v w => v.same w = true) (a.lookup? p) (b.lookup? p)

variable {base a : Assigns} {p : Path} {written mark : Bool}

theorem sameAt_of_get?_eq (h : a.get? p.root = base.get? p.root) : SameAt p base a := by
  unfold SameAt lookup?
  rw [h]
  cases (base.get? p.root).bind p.lookup? with
  | none => exact .none
  | some v => exact .some (Value.same_refl v)

theorem differsAt_of_below_eq_nil (a : Assigns) (hbelow : p.below = []) :
    a.differsAt p = a.isWritten p.root := by
  unfold differsAt isWritten Keyed.has
  cases a.before.get? p.root with
  | none => rfl
  | some before => simp [hbelow]

/-- Nothing is reported of a name that is not on record. -/
theorem differsAt_of_clean (h : a.before.get? p.root = none) : a.differsAt p = false := by
  unfold differsAt
  rw [h]

/-- Every path into a name that is on record without a value is reported. -/
theorem differsAt_of_blank (h : a.before.get? p.root = some none) : a.differsAt p = true := by
  unfold differsAt
  rw [h]
  cases p.below.isEmpty <;> rfl

/-- A path into a name that is on record with a value is reported just if it leads to something
else. -/
theorem differsAt_of_recorded (hequal : a.equal = Value.same) (hbelow : p.below ≠ []) {old : Value}
    (hold : a.before.get? p.root = some (some old)) (hbase : base.get? p.root = some old) :
    a.differsAt p = true ↔ ¬SameAt p base a := by
  have hne : p.below.isEmpty = false := by simpa using hbelow
  unfold differsAt SameAt lookup?
  rw [hold, hbase, hequal, Option.bind_some]
  simp only [hne, Bool.false_eq_true, if_false]
  cases p.lookup? old with
  | none => cases (a.get? p.root).bind p.lookup? <;> simp
  | some x => cases (a.get? p.root).bind p.lookup? <;> simp

namespace Recounts

/-- What is not reported is as it was. -/
theorem unreported (h : Recounts p.root base written mark a) (hequal : a.equal = Value.same)
    (hp : a.differsAt p = false) : a.has p.root = base.has p.root ∧ SameAt p base a := by
  cases hb : a.before.get? p.root with
  | none =>
      have hkept := h.kept (h.clean.mp hb).1
      exact ⟨congrArg Option.isSome hkept, sameAt_of_get?_eq hkept⟩
  | some before =>
      cases before with
      | none =>
          rw [differsAt_of_blank hb] at hp
          cases hp
      | some old =>
          have hbase := h.first old hb
          have hbelow : p.below ≠ [] := by
            intro hnil
            rw [differsAt_of_below_eq_nil a hnil, isWritten, Keyed.has, hb] at hp
            cases hp
          refine ⟨?_, ?_⟩
          · -- values are never taken away
            have hnow : a.get? p.root ≠ none := by
              cases hw : written with
              | true => exact h.present hw
              | false =>
                  rw [h.kept hw, hbase]
                  exact Option.some_ne_none old
            have hhas : a.has p.root = true := Option.isSome_iff_ne_none.mpr hnow
            have hhas' : base.has p.root = true := by
              change (base.get? p.root).isSome = true
              rw [hbase]
              rfl
            rw [hhas, hhas']
          · refine Classical.not_not.mp fun hdiffers => ?_
            rw [(differsAt_of_recorded hequal hbelow hb hbase).mpr hdiffers] at hp
            cases hp

/-- A path into a name that was there and was not marked. -/
theorem differsAt_iff (h : Recounts p.root base written false a) (hequal : a.equal = Value.same)
    (hbelow : p.below ≠ []) (hhas : base.get? p.root ≠ none) :
    a.differsAt p = true ↔ written = true ∧ ¬SameAt p base a := by
  cases hb : a.before.get? p.root with
  | none =>
      rw [differsAt_of_clean hb, (h.clean.mp hb).1]
      simp
  | some before =>
      have hw : written = true := by
        cases hw : written with
        | true => rfl
        | false =>
            rw [h.clean.mpr ⟨hw, rfl⟩] at hb
            cases hb
      cases before with
      | none =>
          rcases h.blank hb with hmark | hnone
          · cases hmark
          · exact absurd hnone hhas
      | some old =>
          rw [differsAt_of_recorded hequal hbelow hb (h.first old hb), hw]
          simp

end Recounts

/-- **What the record reports.** Whatever history leads from settled assigns to the present ones,
under equality of values: a path that is not reported has its name in both or in neither, and leads
to equal values or to nothing in both. A name is reported just if the history wrote it or marked it.
A path into a name that was there and never marked is reported just if the name was written and the
path leads to something else than at the start, whatever it led to meanwhile. -/
theorem differsAt_history (hequal : a.equal = Value.same) (ws : List Write) (p : Path) :
    let now := ws.foldl write a.settled
    (now.differsAt p = false → now.has p.root = a.has p.root ∧ SameAt p a now) ∧
      (now.isWritten p.root = true ↔
        wrote p.root a.settled ws = true ∨ marked p.root a.settled ws = true) ∧
      (p.below = [] → now.differsAt p = now.isWritten p.root) ∧
      (p.below ≠ [] → a.has p.root = true → marked p.root a.settled ws = false →
        (now.differsAt p = true ↔ wrote p.root a.settled ws = true ∧ ¬SameAt p a now)) := by
  intro now
  have htold := (Recounts.settled p.root a).writes ws
  rw [Bool.false_or, Bool.false_or] at htold
  have hnow : now.equal = Value.same := htold.equal.trans hequal
  refine ⟨htold.unreported hnow, htold.isWritten_iff, differsAt_of_below_eq_nil now, ?_⟩
  intro hbelow hhas hmark
  rw [hmark] at htold
  exact htold.differsAt_iff hnow hbelow (Option.isSome_iff_ne_none.mp hhas)

/-- A user and a colour. -/
def profile : Assigns :=
  ofFields [("colour", .str "blue"), ("user", .obj [("age", .int 36), ("name", .str "Ada")])]

/-- Another user stands there for a while; then the first one is merged in, a year older. -/
def birthday : List Write :=
  [.set "user" (.obj [("age", .int 12), ("name", .str "Bob")]),
    .merge [("colour", .str "blue"), ("user", .obj [("age", .int 37), ("name", .str "Ada")])]]

/-- The age has changed and the name has not, though both have been something else meanwhile. The
user is reported as a whole, and the colour, which was merged in as it is, is not. -/
theorem profile_birthday :
    let now := birthday.foldl write profile.settled
    now.differsAt ⟨"user", ["age"]⟩ = true ∧ now.differsAt ⟨"user", ["name"]⟩ = false ∧
      now.differsAt ⟨"user", []⟩ = true ∧ now.differsAt ⟨"colour", []⟩ = false ∧
      SameAt ⟨"colour", []⟩ profile now := by
  intro now
  have hage := (differsAt_history (a := profile) rfl birthday ⟨"user", ["age"]⟩).2.2.2
    (by decide) (by decide) (by decide)
  have hname := (differsAt_history (a := profile) rfl birthday ⟨"user", ["name"]⟩).2.2.2
    (by decide) (by decide) (by decide)
  have huser := (differsAt_history (a := profile) rfl birthday ⟨"user", []⟩).2
  have hcolour := differsAt_history (a := profile) rfl birthday ⟨"colour", []⟩
  have hkept : now.differsAt ⟨"colour", []⟩ = false := by
    rw [hcolour.2.2.1 rfl, ← Bool.not_eq_true, hcolour.2.1]
    decide
  refine ⟨hage.mpr ⟨by decide, ?_⟩, ?_, ?_, hkept, (hcolour.1 hkept).2⟩
  · -- thirty-six, and thirty-seven now
    intro hsame
    change Option.Rel _ (some (Value.int 36)) (some (Value.int 37)) at hsame
    cases hsame with
    | some heq => exact absurd heq (by decide)
  · rw [← Bool.not_eq_true, hname]
    intro hdiffers
    exact hdiffers.2 (.some (Value.same_refl (.str "Ada")))
  · rw [huser.2.1 rfl, huser.1]
    exact .inl (by decide)

end Assigns

end ViewSync
