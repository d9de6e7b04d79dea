import ViewSync.Streams
import Mathlib.Data.List.Nodup

/-!
# The keys of a change

Every item of a change is given its key before anything is queued, in the order of the items. Keys
are in order if each is a text that is not empty, and none comes twice. Otherwise the change is
refused, and what it is refused for is the first item whose key is out of order.
-/

namespace ViewSync.Stream

/-! ## The items of a change -/

/-- The items of a change that are given keys. -/
def Change.items : Change → List Value
  | .insert item .. => [item]
  | .insertAll items .. => items
  | .deleteKey _ => []
  | .deleteItem item => [item]
  | .reset items => items

/-- A change whose items have been given keys. -/
def Change.withKeys (keys : List String) : Change → KeyedChange
  | .insert item position limit updateOnly =>
    .inserts (insertsOf keys [item] position limit updateOnly)
  | .insertAll items position limit => .inserts (insertsOf keys items position limit false)
  | .deleteKey key => .delete key
  | .deleteItem _ => .delete (keys.headD "")
  | .reset items => .reset (insertsOf keys items (-1) none false)

/-- Whatever the change is, its items are given keys in the same way. -/
theorem keyed_eq (keyOf : Value → Value) (c : Change) :
    c.keyed keyOf = (keysFrom keyOf 0 [] c.items).map c.withKeys := by
  cases c <;> rfl

/-- The inserts that a change brings. -/
def KeyedChange.brought : KeyedChange → List Insert
  | .inserts is => is
  | .delete _ => []
  | .reset is => is

variable {keyOf : Value → Value} {before items : List Value} {item : Value} {keys : List String}
variable {fault : KeyFault}

/-! ## Keys in order, and out of order -/

/-- Items have keys, each of them a text that is not empty, and all of them distinct. -/
structure HaveKeys (keyOf : Value → Value) (items : List Value) (keys : List String) : Prop where
  /-- These are the keys, as values. -/
  eq : items.map keyOf = keys.map Value.str
  /-- None of them is empty. -/
  nonempty : "" ∉ keys
  /-- No two are the same. -/
  nodup : keys.Nodup

/-- What is wrong with the key of an item that comes behind others in a change. -/
inductive Faulty (keyOf : Value → Value) (before : List Value) (item : Value) :
    KeyFault → Prop where
  /-- It is no text, or an empty one. -/
  | notText : (∀ key, keyOf item = .str key → key = "") →
      Faulty keyOf before item (.notText before.length (keyOf item))
  /-- An item before it has the same key. -/
  | repeated {key : String} {other : Value} : keyOf item = .str key → key ≠ "" →
      other ∈ before → keyOf other = .str key → Faulty keyOf before item (.repeated key)

/-- What is wrong with the first item whose key is out of order. -/
def FirstFault (keyOf : Value → Value) (items : List Value) (fault : KeyFault) : Prop :=
  ∃ before item after, items = before ++ item :: after ∧
    (∃ keys, HaveKeys keyOf before keys) ∧ Faulty keyOf before item fault

namespace HaveKeys

theorem nil (keyOf : Value → Value) : HaveKeys keyOf [] [] :=
  ⟨rfl, List.not_mem_nil, List.nodup_nil⟩

theorem length_eq (h : HaveKeys keyOf items keys) : keys.length = items.length := by
  simpa using (congrArg List.length h.eq).symm

theorem mem_iff (h : HaveKeys keyOf items keys) {key : String} :
    key ∈ keys ↔ ∃ item ∈ items, keyOf item = .str key := by
  rw [← List.mem_map, h.eq, List.mem_map]
  constructor
  · exact fun hkey => ⟨key, hkey, rfl⟩
  · rintro ⟨other, hother, heq⟩
    exact Value.str.inj heq ▸ hother

/-- One more item with a key of its own. -/
theorem concat (h : HaveKeys keyOf items keys) {key : String} (hitem : keyOf item = .str key)
    (hne : key ≠ "") (hout : key ∉ keys) : HaveKeys keyOf (items ++ [item]) (keys ++ [key]) where
  eq := by simp [h.eq, hitem]
  nonempty := by simp [h.nonempty, Ne.symm hne]
  nodup := List.nodup_append_comm.mp (List.nodup_cons.mpr ⟨hout, h.nodup⟩)

/-- The key of one of the items is in order behind those of the items before it. -/
theorem split {after : List Value} (h : HaveKeys keyOf (before ++ item :: after) keys) :
    ∃ done key rest, keys = done ++ key :: rest ∧ HaveKeys keyOf before done ∧
      keyOf item = .str key ∧ key ≠ "" ∧ key ∉ done := by
  have heq := h.eq.symm
  rw [List.map_append, List.map_cons, List.map_eq_append_iff] at heq
  obtain ⟨done, _, rfl, hbefore, htail⟩ := heq
  obtain ⟨key, rest, rfl, hitem, -⟩ := List.map_eq_cons_iff.mp htail
  obtain ⟨hdone, -, hapart⟩ := List.nodup_append.mp h.nodup
  refine ⟨done, key, rest, rfl, ⟨hbefore.symm, ?_, hdone⟩, hitem.symm, ?_, ?_⟩
  · exact fun hin => h.nonempty (List.mem_append_left _ hin)
  · exact fun hempty => h.nonempty (by simp [hempty])
  · exact fun hin => hapart key hin key List.mem_cons_self rfl

/-- No item of a change with keys has a faulty one. -/
theorem not_faulty {after : List Value} (h : HaveKeys keyOf (before ++ item :: after) keys) :
    ¬Faulty keyOf before item fault := by
  obtain ⟨done, key, -, -, hdone, hitem, hne, hout⟩ := h.split
  intro hf
  cases hf with
  | notText htext => exact hne (htext key hitem)
  | repeated hitem' _ hother heq =>
      obtain rfl := Value.str.inj (hitem.symm.trans hitem')
      exact hout (hdone.mem_iff.mpr ⟨_, hother, heq⟩)

end HaveKeys

/-! ## How keys are computed -/

/-- **Behind items that have keys, either all the others have keys as well, or the first one that
has none is named.** -/
theorem keysFrom_spec {done : List String} (h : HaveKeys keyOf before done) {seen : List String}
    (hseen : ∀ key, key ∈ seen ↔ key ∈ done) (items : List Value) :
    (∃ keys, keysFrom keyOf before.length seen items = .ok keys ∧
      HaveKeys keyOf (before ++ items) (done ++ keys)) ∨
    ∃ fault, keysFrom keyOf before.length seen items = .error fault ∧
      FirstFault keyOf (before ++ items) fault := by
  induction items generalizing before done seen with
  | nil => exact .inl ⟨[], rfl, by simpa using h⟩
  | cons item items ih =>
      -- the first fault is here, or behind this item
      have hhere {fault : KeyFault} (hf : Faulty keyOf before item fault) :
          FirstFault keyOf (before ++ item :: items) fault :=
        ⟨before, item, items, rfl, ⟨done, h⟩, hf⟩
      unfold keysFrom
      split
      · next key hitem =>
          split
          · next hempty =>
              have hempty : key = "" := by simpa using hempty
              refine .inr ⟨_, rfl, hitem ▸ hhere (.notText fun key' heq => ?_)⟩
              exact (Value.str.inj (hitem.symm.trans heq)).symm.trans hempty
          · next hne =>
              have hne : key ≠ "" := by simpa using hne
              split
              · next hin =>
                  obtain ⟨other, hmem, heq⟩ := h.mem_iff.mp ((hseen key).mp hin)
                  exact .inr ⟨_, rfl, hhere (.repeated hitem hne hmem heq)⟩
              · next hout =>
                  have hdone : key ∉ done := fun hin => hout ((hseen key).mpr hin)
                  have hseen' (k : String) : k ∈ key :: seen ↔ k ∈ done ++ [key] := by
                    simp [hseen, or_comm]
                  have hrest := ih (h.concat hitem hne hdone) hseen'
                  rw [List.length_append, List.length_singleton, List.append_assoc] at hrest
                  rcases hrest with ⟨keys, hkeys, hall⟩ | ⟨fault, hfault, hfirst⟩
                  · exact .inl ⟨key :: keys, by rw [hkeys]; rfl, by simpa using hall⟩
                  · exact .inr ⟨fault, by rw [hfault]; rfl, hfirst⟩
      · next hnot => exact .inr ⟨_, rfl, hhere (.notText fun key heq => absurd heq (hnot key))⟩

/-! ## The keys of a change -/

/-- **A change is given keys, or it is refused for its first fault.** -/
theorem keyed_spec (keyOf : Value → Value) (c : Change) :
    (∃ keys, c.keyed keyOf = .ok (c.withKeys keys) ∧ HaveKeys keyOf c.items keys) ∨
    ∃ fault, c.keyed keyOf = .error fault ∧ FirstFault keyOf c.items fault := by
  have hseen (key : String) : key ∈ ([] : List String) ↔ key ∈ ([] : List String) := Iff.rfl
  rw [keyed_eq]
  rcases keysFrom_spec (HaveKeys.nil keyOf) hseen c.items with ⟨keys, hkeys, h⟩ | ⟨fault, hf, h⟩
  · exact .inl ⟨keys, congrArg (Except.map c.withKeys) hkeys, h⟩
  · exact .inr ⟨fault, congrArg (Except.map c.withKeys) hf, h⟩

theorem haveKeys_of_keyed {c : Change} {k : KeyedChange} (h : c.keyed keyOf = .ok k) :
    ∃ keys, k = c.withKeys keys ∧ HaveKeys keyOf c.items keys := by
  rcases keyed_spec keyOf c with ⟨keys, hkeys, hall⟩ | ⟨fault, hf, -⟩
  · exact ⟨keys, Except.ok.inj (h.symm.trans hkeys), hall⟩
  · cases h.symm.trans hf

theorem firstFault_of_keyed {c : Change} (h : c.keyed keyOf = .error fault) :
    FirstFault keyOf c.items fault := by
  rcases keyed_spec keyOf c with ⟨keys, hkeys, -⟩ | ⟨fault', hf, hfirst⟩
  · cases h.symm.trans hkeys
  · exact Except.error.inj (h.symm.trans hf) ▸ hfirst

/-! ## Inserts under keys -/

theorem keys_insertsOf (h : HaveKeys keyOf items keys) (position : Int) (limit : Option Int)
    (updateOnly : Bool) :
    (insertsOf keys items position limit updateOnly).map (·.key) = keys := by
  unfold insertsOf
  rw [List.map_map]
  exact List.map_fst_zip (Nat.le_of_eq h.length_eq)

/-- Every item is in the inserts, under its key. -/
theorem mem_insertsOf (h : HaveKeys keyOf items keys) (hitem : item ∈ items) (position : Int)
    (limit : Option Int) (updateOnly : Bool) :
    ∃ key, keyOf item = .str key ∧ key ≠ "" ∧
      { key, position, limit, updateOnly, item } ∈
        insertsOf keys items position limit updateOnly := by
  obtain ⟨before, after, rfl⟩ := List.append_of_mem hitem
  obtain ⟨done, key, rest, rfl, hdone, hkey, hne, -⟩ := h.split
  refine ⟨key, hkey, hne, List.mem_map.mpr ⟨(key, item), ?_, rfl⟩⟩
  rw [List.zip_append hdone.length_eq]
  exact List.mem_append_right _ List.mem_cons_self

/-- **No change brings two inserts of one key.** -/
theorem nodup_brought {c : Change} {k : KeyedChange} (h : c.keyed keyOf = .ok k) :
    (k.brought.map (·.key)).Nodup := by
  obtain ⟨keys, rfl, hall⟩ := haveKeys_of_keyed h
  have hnd (position : Int) (limit : Option Int) (updateOnly : Bool) :
      ((insertsOf keys c.items position limit updateOnly).map (·.key)).Nodup :=
    (keys_insertsOf hall position limit updateOnly).symm ▸ hall.nodup
  cases c with
  | insert item position limit updateOnly => exact hnd position limit updateOnly
  | insertAll items position limit => exact hnd position limit false
  | deleteKey key => exact List.nodup_nil
  | deleteItem item => exact List.nodup_nil
  | reset items => exact hnd (-1) none false

end ViewSync.Stream
