/-!
# Keyed lists

A map with few entries, kept as a list of pairs in increasing order of key, so that two maps with
the same entries are the same list. Nothing below asks for the order: the laws of look-up hold of
every list of pairs. That each operation keeps the order is shown apart from them.
-/

namespace ViewSync

/-- A map as a list of pairs. -/
abbrev Keyed (κ α : Type) := List (κ × α)

namespace Keyed

variable {κ α β : Type}

/-- Strictly increasing in key. -/
def Sorted [LT κ] (m : Keyed κ α) : Prop := m.Pairwise (fun a b => a.1 < b.1)

/-- The keys, in the order of the list. -/
def keys (m : Keyed κ α) : List κ := m.map Prod.fst

section Lookup

variable [DecidableEq κ]

/-- The value of the first entry under `k`. -/
def get? : Keyed κ α → κ → Option α
  | [], _ => none
  | (k', v) :: m, k => if k' = k then some v else get? m k

/-- Whether `k` has an entry. -/
def has (m : Keyed κ α) (k : κ) : Bool := (m.get? k).isSome

/-- Drop every entry under `k`. -/
def erase (m : Keyed κ α) (k : κ) : Keyed κ α := m.filter (fun e => e.1 ≠ k)

/-- Change the value under `k`, if there is one, where it stands. -/
def modify (m : Keyed κ α) (k : κ) (f : α → α) : Keyed κ α :=
  m.map (fun e => if e.1 = k then (e.1, f e.2) else e)

theorem get?_erase_self (m : Keyed κ α) (k : κ) : (m.erase k).get? k = none := by
  induction m with
  | nil => rfl
  | cons e m ih =>
    by_cases h : e.1 = k
    · simpa [erase, h] using ih
    · simpa [erase, get?, h] using ih

theorem get?_erase_of_ne (m : Keyed κ α) {k j : κ} (h : j ≠ k) :
    (m.erase k).get? j = m.get? j := by
  induction m with
  | nil => rfl
  | cons e m ih =>
    by_cases hk : e.1 = k
    · have hj : e.1 ≠ j := fun hj => h (hj.symm.trans hk)
      simpa [erase, get?, hk, hj, Ne.symm h] using ih
    · by_cases hj : e.1 = j
      · simp [erase, get?, hj, h]
      · simpa [erase, get?, hk, hj] using ih

end Lookup

section Insert

variable [DecidableEq κ] [LT κ] [DecidableRel (α := κ) (· < ·)]

/-- Put `v` under `k`, in place of what was there. -/
def insert : Keyed κ α → κ → α → Keyed κ α
  | [], k, v => [(k, v)]
  | (k', v') :: m, k, v =>
    if k' = k then (k, v) :: m
    else if k < k' then (k, v) :: (k', v') :: m
    else (k', v') :: insert m k v

/-- Put `v` under `k` unless something is there. -/
def insertNew (m : Keyed κ α) (k : κ) (v : α) : Keyed κ α :=
  if m.has k then m else m.insert k v

/-- The map of a list of entries, of which later ones win. -/
def ofList (entries : List (κ × α)) : Keyed κ α :=
  entries.foldl (fun m e => m.insert e.1 e.2) []

theorem get?_insert_self (m : Keyed κ α) (k : κ) (v : α) : (m.insert k v).get? k = some v := by
  induction m with
  | nil => simp [insert, get?]
  | cons e m ih =>
    simp only [insert]
    split
    · simp [get?]
    · split
      · simp [get?]
      · next hk _ => simp [get?, hk, ih]

theorem get?_insert_of_ne (m : Keyed κ α) {k j : κ} (v : α) (h : j ≠ k) :
    (m.insert k v).get? j = m.get? j := by
  induction m with
  | nil => simp [insert, get?, Ne.symm h]
  | cons e m ih =>
    simp only [insert]
    split
    · next hk => simp [get?, Ne.symm h, hk]
    · split
      · simp [get?, Ne.symm h]
      · by_cases hj : e.1 = j <;> simp [get?, hj, ih]

end Insert

end Keyed

/-!
## Sets

A finite set of keys in increasing order, by the same convention.
-/

/-- A set as a list of its members. -/
abbrev KeySet (κ : Type) := List κ

namespace KeySet

variable {κ : Type} [DecidableEq κ] [LT κ] [DecidableRel (α := κ) (· < ·)]

/-- Add `k`, if it is not there. -/
def insert : KeySet κ → κ → KeySet κ
  | [], k => [k]
  | k' :: s, k => if k' = k then k' :: s else if k < k' then k :: k' :: s else k' :: insert s k

/-- Add every key of a list. -/
def insertAll (s : KeySet κ) (ks : List κ) : KeySet κ := ks.foldl insert s

/-- Take `k` out. -/
def erase (s : KeySet κ) (k : κ) : KeySet κ := s.filter (· ≠ k)

theorem mem_insert {s : KeySet κ} {k j : κ} : j ∈ insert s k ↔ j = k ∨ j ∈ s := by
  induction s with
  | nil => simp [insert]
  | cons a s ih =>
    simp only [insert]
    split
    · next h => simp [h]
    · split
      · simp
      · simp only [List.mem_cons, ih]
        grind

omit [LT κ] [DecidableRel (α := κ) (· < ·)] in
theorem mem_erase {s : KeySet κ} {k j : κ} : j ∈ erase s k ↔ j ∈ s ∧ j ≠ k := by
  simp [erase]

end KeySet

end ViewSync
