import ViewSync.Streams
import ViewSync.Proofs.Keyed

/-!
# The items of streams

Whatever is true of every item that is put into streams is true of every item that waits in a
queue, and of every item that a flush hands to the client.
-/

namespace ViewSync

variable {Good : Value → Prop}

namespace Stream

/-- The items of a change have a property. -/
def Change.Brings (Good : Value → Prop) : Change → Prop
  | .insert item _ _ _ => Good item
  | .insertAll items _ _ => ∀ v ∈ items, Good v
  | .deleteKey _ => True
  | .deleteItem _ => True
  | .reset items => ∀ v ∈ items, Good v

/-- The items of inserts have a property. -/
def Bring (Good : Value → Prop) (inserts : List Insert) : Prop := ∀ i ∈ inserts, Good i.item

theorem bring_insertsOf {items : List Value} (h : ∀ v ∈ items, Good v) (keys : List String)
    (position : Int) (limit : Option Int) (updateOnly : Bool) :
    Bring Good (insertsOf keys items position limit updateOnly) := by
  intro i hi
  obtain ⟨⟨key, item⟩, hmem, rfl⟩ := List.mem_map.mp hi
  exact h item (List.of_mem_zip hmem).2

/-- The inserts of a change, once it has keys. -/
def KeyedChange.Brings (Good : Value → Prop) : KeyedChange → Prop
  | .inserts is => Bring Good is
  | .delete _ => True
  | .reset is => Bring Good is

theorem brings_keyed {c : Change} (h : c.Brings Good) {keyOf : Value → Value} {k : KeyedChange}
    (hk : c.keyed keyOf = .ok k) : k.Brings Good := by
  have hmap {f : List String → KeyedChange} {x : Except KeyFault (List String)}
      (hx : x.map f = .ok k) : ∃ keys, k = f keys := by
    cases x with
    | error e => cases hx
    | ok keys => exact ⟨keys, (Except.ok.inj hx).symm⟩
  cases c with
  | insert item position limit updateOnly =>
      obtain ⟨keys, rfl⟩ := hmap hk
      exact bring_insertsOf (List.forall_mem_singleton.mpr h) keys position limit updateOnly
  | insertAll items position limit =>
      obtain ⟨keys, rfl⟩ := hmap hk
      exact bring_insertsOf h keys position limit false
  | deleteKey key =>
      obtain rfl := Except.ok.inj hk
      trivial
  | deleteItem item =>
      obtain ⟨keys, rfl⟩ := hmap hk
      trivial
  | reset items =>
      obtain ⟨keys, rfl⟩ := hmap hk
      exact bring_insertsOf h keys (-1) none false

theorem bring_queueInsert {s : Stream} (h : Bring Good s.inserts) {i : Insert} (hi : Good i.item) :
    Bring Good (s.queueInsert i).inserts := by
  intro j hj
  rcases List.mem_append.mp hj with hj | hj
  · exact h j ((List.mem_filter.mp hj).1)
  · obtain rfl := List.mem_singleton.mp hj
    exact hi

theorem bring_queue {s : Stream} (h : Bring Good s.inserts) {c : KeyedChange}
    (hc : c.Brings Good) : Bring Good (s.queue c).inserts := by
  cases c with
  | inserts is =>
      change Bring Good (is.foldl queueInsert s).inserts
      induction is generalizing s with
      | nil => exact h
      | cons i is ih =>
          have hfirst := bring_queueInsert h (hc i List.mem_cons_self)
          exact ih hfirst fun j hj => hc j (List.mem_cons_of_mem _ hj)
  | delete key => exact fun j hj => h j ((List.mem_filter.mp hj).1)
  | reset is => exact hc

/-- What is sent is what was waiting, perhaps at another position. -/
theorem bring_landAll {is : List Insert} (h : Bring Good is) (held : List String) :
    Bring Good (landAll held is).2 := by
  induction is generalizing held with
  | nil => exact List.forall_mem_nil _
  | cons i is ih =>
      have hone : Bring Good (land held i).2.toList := by
        have hitem : Good i.item := h i List.mem_cons_self
        intro j hj
        have hj := Option.mem_toList.mp hj
        unfold land at hj
        dsimp only at hj
        split at hj
        · obtain rfl := Option.some.inj hj
          exact hitem
        · split at hj
          · cases hj
          · obtain rfl := Option.some.inj hj
            exact hitem
      have hrest := ih (fun j hj => h j (List.mem_cons_of_mem _ hj)) (land held i).1
      intro j hj
      rcases List.mem_append.mp hj with hj | hj
      · exact hone j hj
      · exact hrest j hj

theorem bring_plan {s : Stream} (h : Bring Good s.inserts) (name : String) :
    Bring Good (s.plan name).flush.inserts :=
  bring_landAll h _

end Stream

namespace Streams

/-- All items that wait in streams have a property. -/
def Wait (Good : Value → Prop) (s : Streams) : Prop := ∀ e ∈ s.all, Stream.Bring Good e.2.inserts

variable {s : Streams}

theorem Wait.modify (h : s.Wait Good) (name : String) {f : Stream → Stream}
    (hf : ∀ t, Stream.Bring Good t.inserts → Stream.Bring Good (f t).inserts) :
    (s.modify name f).Wait Good := by
  intro e he
  obtain ⟨d, hd, rfl⟩ := List.mem_map.mp he
  split
  · exact hf d.2 (h d hd)
  · exact h d hd

theorem Wait.keyBy (h : s.Wait Good) (name : String) (keyOf : Value → Value) :
    (s.keyBy name keyOf).Wait Good := by
  unfold Streams.keyBy
  split
  · exact h.modify name fun _ ht => ht
  · intro e he
    rcases List.mem_append.mp he with he | he
    · exact h e he
    · obtain rfl := List.mem_singleton.mp he
      exact List.forall_mem_nil _

theorem Wait.change (h : s.Wait Good) {name : String} {c : Stream.Change} (hc : c.Brings Good)
    {s' : Streams} (hs : s.change name c = .ok s') : s'.Wait Good := by
  unfold Streams.change at hs
  split at hs
  · cases hs
  · next keyed hkeyed =>
      obtain rfl := Except.ok.inj hs
      refine Wait.modify ?_ name fun t ht => Stream.bring_queue ht (Stream.brings_keyed hc hkeyed)
      split
      · exact h
      · exact h.keyBy name _

theorem Wait.adopt (h : s.Wait Good) (held : List (String × List String)) :
    (s.adopt held).Wait Good := by
  unfold Streams.adopt
  induction held generalizing s with
  | nil => exact h
  | cons e held ih => exact ih (h.modify e.1 fun _ _ => List.forall_mem_nil _)

/-- Flushes hand out items that were waiting. -/
theorem Wait.plans (h : s.Wait Good) :
    ∀ e ∈ s.plans, Stream.Bring Good e.2.flush.inserts := by
  intro e he
  obtain ⟨d, hd, rfl⟩ := List.mem_map.mp he
  exact Stream.bring_plan (h d ((List.mem_filter.mp hd).1)) d.1

end Streams

end ViewSync
