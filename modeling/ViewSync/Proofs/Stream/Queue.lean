import ViewSync.Proofs.Stream.Lifetime

/-!
# Queues and what is flushed from them

A queue says each thing once: no two inserts wait for one key, no delete waits twice, and no key
waits for both; only what the client holds waits to be deleted, and nothing does while a reset
waits. Whatever is queued next keeps it so.

A flush that is made from such a queue says each thing once as well. It deletes only what the client
has. A key in both its deletes and its inserts is one that moves. An insert of a key that the client
has at that point of the flush names the place that the key is in, and every other insert is sent as
it was queued.
-/

namespace ViewSync

namespace Stream

open StreamEdits

variable {s : Stream} {i j : Insert} {is : List Insert} {held list : List String} {key : String}

/-! ## Queues -/

/-- A queue says each thing once. -/
structure Proper (s : Stream) : Prop where
  /-- No key is held twice. -/
  held : s.held.Nodup
  /-- No two inserts wait for one key. -/
  inserts : (s.inserts.map (·.key)).Nodup
  /-- No delete waits twice. -/
  deletes : s.deletes.Nodup
  /-- Only keys that are held wait to be deleted. -/
  deletesHeld : ∀ key ∈ s.deletes, key ∈ s.held
  /-- No key waits both to be inserted and to be deleted. -/
  apart : ∀ i ∈ s.inserts, i.key ∉ s.deletes
  /-- Nothing waits to be deleted while a reset waits. -/
  reset : s.reset = true → s.deletes = []

/-- Of inserts of distinct keys, none before or behind one of them has its key. -/
theorem apart_of_nodup {before after : List Insert}
    (hnd : ((before ++ i :: after).map (·.key)).Nodup) :
    (∀ j ∈ before, j.key ≠ i.key) ∧ ∀ j ∈ after, j.key ≠ i.key := by
  rw [List.map_append, List.map_cons, List.nodup_append, List.nodup_cons] at hnd
  obtain ⟨-, ⟨hafter, -⟩, hbefore⟩ := hnd
  refine ⟨fun j hj => ?_, fun j hj heq => hafter (List.mem_map.mpr ⟨j, hj, heq⟩)⟩
  exact hbefore j.key (List.mem_map_of_mem hj) i.key List.mem_cons_self

/-- Distinct keys have an insert each. -/
theorem ofKey_of_mem (hnd : (is.map (·.key)).Nodup) (hi : i ∈ is) : ofKey i.key is = [i] := by
  obtain ⟨before, after, rfl⟩ := List.append_of_mem hi
  obtain ⟨hbefore, hafter⟩ := apart_of_nodup hnd
  rw [ofKey_append, ofKey_eq_nil.mpr hbefore, List.nil_append, ofKey,
    List.filter_cons_of_pos (by simp)]
  exact congrArg (i :: ·) (ofKey_eq_nil.mpr hafter)

namespace Proper

theorem alone (h : s.Proper) (hi : i ∈ s.inserts) : Alone i s :=
  ⟨ofKey_of_mem h.inserts hi, h.apart i hi⟩

theorem adopt (s : Stream) (hnd : held.Nodup) : (s.adopt held).Proper where
  held := hnd
  inserts := List.nodup_nil
  deletes := List.nodup_nil
  deletesHeld := List.forall_mem_nil _
  apart := List.forall_mem_nil _
  reset _ := rfl

theorem queueInsert (h : s.Proper) (i : Insert) : (s.queueInsert i).Proper where
  held := h.held
  inserts := by
    change ((s.inserts.filter (·.key ≠ i.key) ++ [i]).map (·.key)).Nodup
    rw [List.map_append]
    refine List.nodup_append_comm.mp (List.nodup_cons.mpr ⟨fun hin => ?_, ?_⟩)
    · obtain ⟨j, hj, heq⟩ := List.mem_map.mp hin
      exact of_decide_eq_true (List.mem_filter.mp hj).2 heq
    · exact h.inserts.sublist (List.filter_sublist.map _)
  deletes := h.deletes.filter _
  deletesHeld key hkey := h.deletesHeld key (List.mem_of_mem_filter hkey)
  apart j hj hin := by
    obtain ⟨hin, hne⟩ := List.mem_filter.mp hin
    rcases List.mem_append.mp hj with hj | hj
    · exact h.apart j (List.mem_of_mem_filter hj) hin
    · exact of_decide_eq_true hne (congrArg (·.key) (List.mem_singleton.mp hj))
  reset hreset := by
    change s.deletes.filter _ = []
    rw [h.reset hreset]
    rfl

theorem queueDelete (h : s.Proper) (key : String) : (s.queueDelete key).Proper := by
  have hinserts : ((s.inserts.filter (·.key ≠ key)).map (·.key)).Nodup :=
    h.inserts.sublist (List.filter_sublist.map _)
  have hapart (j : Insert) (hj : j ∈ s.inserts.filter (·.key ≠ key)) :
      j.key ∉ s.deletes ∧ j.key ≠ key :=
    ⟨h.apart j (List.mem_of_mem_filter hj), of_decide_eq_true (List.mem_filter.mp hj).2⟩
  unfold Stream.queueDelete
  split
  · next hwaits =>
      simp only [Bool.and_eq_true, Bool.not_eq_true', decide_eq_true_eq] at hwaits
      obtain ⟨⟨hreset, hheld⟩, hnew⟩ := hwaits
      refine ⟨h.held, hinserts, ?_, ?_, fun j hj hin => ?_, fun htrue => ?_⟩
      · exact List.nodup_append_comm.mp (List.nodup_cons.mpr ⟨hnew, h.deletes⟩)
      · exact List.forall_mem_append.mpr ⟨h.deletesHeld, List.forall_mem_singleton.mpr hheld⟩
      · obtain ⟨hout, hne⟩ := hapart j hj
        exact (List.mem_append.mp hin).elim hout fun hin => hne (List.mem_singleton.mp hin)
      · exact absurd (hreset.symm.trans htrue) Bool.false_ne_true
  · exact ⟨h.held, hinserts, h.deletes, h.deletesHeld, fun j hj => (hapart j hj).1, h.reset⟩

/-- **A change that brings no two inserts of one key keeps the queue proper.** -/
theorem queue (h : s.Proper) {c : KeyedChange} (hc : (c.brought.map (·.key)).Nodup) :
    (s.queue c).Proper := by
  cases c with
  | inserts is => exact List.foldlRecOn is _ h fun s hs i _ => hs.queueInsert i
  | delete key => exact h.queueDelete key
  | reset is =>
      exact ⟨h.held, hc, List.nodup_nil, List.forall_mem_nil _, fun _ _ => List.not_mem_nil,
        fun _ => rfl⟩

theorem queueAll (h : s.Proper) {cs : List KeyedChange}
    (hcs : ∀ c ∈ cs, (c.brought.map (·.key)).Nodup) : (s.queueAll cs).Proper :=
  List.foldlRecOn cs _ h fun _ hs c hc => hs.queue (hcs c hc)

end Proper

/-! ## Keys that move -/

theorem mem_of_moved (hkey : key ∈ (takeMoves held is).2) : key ∈ held := by
  induction is generalizing held with
  | nil => cases hkey
  | cons i is ih =>
      unfold takeMoves at hkey
      split at hkey
      · next hmoves =>
          rcases List.mem_cons.mp hkey with rfl | hkey
          · exact (moves_iff.mp hmoves).1
          · exact List.mem_of_mem_erase (ih hkey)
      · exact ih hkey

theorem nodup_moved (hnd : (is.map (·.key)).Nodup) (held : List String) :
    (takeMoves held is).2.Nodup := by
  induction is generalizing held with
  | nil => exact List.nodup_nil
  | cons i is ih =>
      obtain ⟨hout, hnd⟩ := List.nodup_cons.mp hnd
      have hother (j : Insert) (hj : j ∈ is) : j.key ≠ i.key := fun heq =>
        hout (List.mem_map.mpr ⟨j, hj, heq⟩)
      unfold takeMoves
      split
      · exact List.nodup_cons.mpr ⟨not_mem_moved hother _, ih hnd _⟩
      · exact ih hnd held

theorem takeMoves_nil (is : List Insert) : takeMoves [] is = ([], []) := by
  induction is with
  | nil => rfl
  | cons i is ih => exact ih

/-! ## Inserts that are sent -/

/-- What is sent for an insert names the place of its key, or is the insert itself. -/
theorem land_sent (h : (land held i).2 = some j) :
    (i.key ∈ held ∧ j = { i with position := held.idxOf i.key }) ∨ i.key ∉ held ∧ j = i := by
  unfold land at h
  split at h
  · next current hi =>
      have hin : i.key ∈ held := by
        rw [← List.isSome_idxOf?, hi]
        rfl
      have hcurrent : held.idxOf i.key = current := by
        rw [List.idxOf_eq_getD_idxOf?, hi, Option.getD_some]
      exact .inl ⟨hin, hcurrent ▸ (Option.some.inj h).symm⟩
  · next hi =>
      have hout : i.key ∉ held := fun hin => by
        rw [← List.isSome_idxOf?, hi] at hin
        cases hin
      split at h
      · cases h
      · exact .inr ⟨hout, (Option.some.inj h).symm⟩

/-- Inserts are sent in the order in which they wait. -/
theorem keys_landAll (is : List Insert) (held : List String) :
    List.Sublist ((landAll held is).2.map (·.key)) (is.map (·.key)) := by
  induction is generalizing held with
  | nil => exact List.Sublist.slnil
  | cons i is ih =>
      have hrest := ih (land held i).1
      unfold landAll
      cases hsent : (land held i).2 with
      | none => simpa [hsent] using hrest.cons i.key
      | some j =>
          have hkey : j.key = i.key := by
            rcases land_sent hsent with ⟨-, rfl⟩ | ⟨-, rfl⟩ <;> rfl
          simpa [hsent, hkey] using hrest

/-- **What is sent for an insert, by the list of the client when it gets there.** If the client has
the key, its place is named, and if not, the insert is sent as it was queued. -/
theorem landAll_sent (is : List Insert) (hnd : held.Nodup) {before after : List Insert}
    (h : (landAll held is).2 = before ++ i :: after) :
    let list := (before.map Insert.toPlacement).foldl place held
    (∃ j ∈ is, i = { j with position := i.position }) ∧
      (i.key ∈ list → i.position = list.idxOf i.key) ∧ (i.key ∉ list → i ∈ is) := by
  induction is generalizing held before with
  | nil => cases before <;> cases h
  | cons p is ih =>
      obtain ⟨hnd', hland⟩ := land_spec hnd p
      have hmore {list : List String}
          (h : (∃ j ∈ is, i = { j with position := i.position }) ∧
            (i.key ∈ list → i.position = list.idxOf i.key) ∧ (i.key ∉ list → i ∈ is)) :
          (∃ j ∈ p :: is, i = { j with position := i.position }) ∧
            (i.key ∈ list → i.position = list.idxOf i.key) ∧ (i.key ∉ list → i ∈ p :: is) := by
        obtain ⟨⟨j, hj, heq⟩, hin, hout⟩ := h
        exact ⟨⟨j, List.mem_cons_of_mem _ hj, heq⟩, hin,
          fun hnot => List.mem_cons_of_mem _ (hout hnot)⟩
      unfold landAll at h
      dsimp only at h
      cases hsent : (land held p).2 with
      | none =>
          rw [hsent] at h hland
          rw [show (land held p).1 = held from hland] at h
          exact hmore (ih hnd h)
      | some q =>
          rw [hsent] at h hland
          cases before with
          | nil =>
              obtain ⟨rfl, -⟩ := List.cons.inj h
              rcases land_sent hsent with ⟨hin, rfl⟩ | ⟨hout, rfl⟩
              · exact ⟨⟨p, List.mem_cons_self, rfl⟩, fun _ => rfl, fun hout => absurd hin hout⟩
              · exact ⟨⟨q, List.mem_cons_self, rfl⟩, fun hin => absurd hin hout,
                  fun _ => List.mem_cons_self⟩
          | cons b before =>
              obtain ⟨rfl, hrest⟩ := List.cons.inj h
              have hlist := ih hnd' hrest
              rw [show (land held p).1 = place held q.toPlacement from hland] at hlist
              exact hmore hlist

/-- A client that is sent inserts has no keys but those that it had and those of the inserts. -/
theorem mem_of_mem_placed {ps : List Placement} (hkey : key ∈ ps.foldl place list) :
    key ∈ list ∨ ∃ p ∈ ps, p.key = key := by
  induction ps generalizing list with
  | nil => exact .inl hkey
  | cons p ps ih =>
      rcases ih hkey with hkey | ⟨q, hq, heq⟩
      · unfold place at hkey
        simp only [putIn_eq_insertAt, funext (keepOnly_eq_trim _)] at hkey
        rcases mem_insertAt (mem_of_mem_trim p.limit hkey) with rfl | hkey
        · exact .inr ⟨p, List.mem_cons_self, rfl⟩
        · exact .inl (List.mem_of_mem_filter hkey)
      · exact .inr ⟨q, List.mem_cons_of_mem _ hq, heq⟩

/-! ## Flushes -/

/-- What a reset leaves of the held keys. -/
def afterReset (s : Stream) : List String := if s.reset then [] else s.held

/-- The keys that are left when all that moves is taken out, and the keys that move. -/
def leaving (s : Stream) : List String × List String :=
  takeMoves (s.afterReset.filter (· ∉ s.deletes)) s.inserts

/-- The deletes and the inserts of a flush, and the keys that are held after it. -/
theorem Proper.plan_eq (h : s.Proper) (name : String) :
    s.plan name =
      ⟨⟨name, s.number, (landAll s.leaving.1 s.inserts).2, s.deletes ++ s.leaving.2, s.reset⟩,
        (landAll s.leaving.1 s.inserts).1⟩ := by
  have hall : s.deletes.filter (· ∈ s.afterReset) = s.deletes := by
    refine List.filter_eq_self.mpr fun key hkey => decide_eq_true ?_
    unfold afterReset
    split
    · next hreset =>
        rw [h.reset hreset] at hkey
        cases hkey
    · exact h.deletesHeld key hkey
  unfold plan leaving
  unfold afterReset at hall ⊢
  dsimp only
  rw [hall]

theorem Proper.nodup_leaving (h : s.Proper) : s.leaving.1.Nodup := by
  refine nodup_takeMoves (List.Nodup.filter _ ?_) _
  unfold afterReset
  split
  · exact List.nodup_nil
  · exact h.held

/-- Taking out the deletes of a flush leaves what the inserts are placed in. -/
theorem Proper.filter_deletes (h : s.Proper) :
    s.afterReset.filter (· ∉ s.deletes ++ s.leaving.2) = s.leaving.1 := by
  have hnd : (s.afterReset.filter (· ∉ s.deletes)).Nodup := by
    unfold afterReset
    split
    · exact List.nodup_nil
    · exact h.held.filter _
  unfold leaving
  rw [takeMoves_eq_filter _ hnd, List.filter_filter]
  exact List.filter_congr fun key _ => by simp [Bool.and_comm]

/-- The list of a client that has been sent so much of a flush. -/
def Flush.listAfter (f : Flush) (list : List String) (sent : List Insert) : List String :=
  { f.edits with inserts := sent.map Insert.toPlacement }.apply list

/-- A flush says each thing once, and tells a client only what fits the list that it has. -/
structure Flush.Orderly (f : Flush) (s : Stream) (list : List String) : Prop where
  /-- The flush is told from those of other streams by its number. -/
  number : f.number = s.number
  /-- No key is inserted twice. -/
  inserts : (f.inserts.map (·.key)).Nodup
  /-- No key is deleted twice. -/
  deletes : f.deletes.Nodup
  /-- Only keys that the client has are deleted. -/
  deletesHeld : ∀ key ∈ f.deletes, key ∈ list
  /-- A key that is deleted and inserted has an insert that names a position, and not the one that
  the key has when it is its turn to move. -/
  moved : ∀ i ∈ f.inserts, i.key ∈ f.deletes → i ∈ s.inserts ∧ i.key ∈ s.listAt i.key ∧
    0 ≤ i.position ∧ ((s.listAt i.key).idxOf i.key : Int) ≠ i.position
  /-- Nothing is deleted when the list is reset. -/
  reset : f.reset = true → f.deletes = []
  /-- An insert of a key that the client has by then names the place of the key. -/
  inPlace : ∀ before i after, f.inserts = before ++ i :: after → i.key ∈ f.listAfter list before →
    ((f.listAfter list before).idxOf i.key : Int) = i.position
  /-- An insert of any other key is one that was queued. -/
  asQueued : ∀ before i after, f.inserts = before ++ i :: after →
    i.key ∉ f.listAfter list before → i ∈ s.inserts

theorem mem_of_mem_leaving (hkey : key ∈ s.leaving.2) :
    s.reset = false ∧ key ∈ s.held ∧ key ∉ s.deletes := by
  obtain ⟨hheld, hout⟩ := List.mem_filter.mp (mem_of_moved hkey)
  unfold afterReset at hheld
  split at hheld
  · cases hheld
  · next hreset => exact ⟨Bool.eq_false_iff.mpr hreset, hheld, of_decide_eq_true hout⟩

theorem Proper.nodup_sent (h : s.Proper) :
    ((landAll s.leaving.1 s.inserts).2.map (·.key)).Nodup :=
  h.inserts.sublist (keys_landAll s.inserts _)

/-- A key that is deleted and inserted moves, and its insert is sent as it was queued. -/
theorem Proper.moved (h : s.Proper) {before after : List Insert}
    (hsplit : (landAll s.leaving.1 s.inserts).2 = before ++ i :: after)
    (hdel : i.key ∈ s.deletes ++ s.leaving.2) :
    i ∈ s.inserts ∧ moves (s.listAt i.key) i = true := by
  obtain ⟨⟨j, hj, hsame⟩, -, hqueued⟩ := landAll_sent s.inserts h.nodup_leaving hsplit
  have hkey : i.key = j.key := by rw [hsame]
  have hmoved : i.key ∈ s.leaving.2 :=
    (List.mem_append.mp hdel).resolve_left (hkey ▸ h.apart j hj)
  -- the key was taken out, and no insert before has brought it back
  have hout : i.key ∉ (before.map Insert.toPlacement).foldl place s.leaving.1 := fun hin => by
    rcases mem_of_mem_placed hin with hin | ⟨p, hp, heq⟩
    · rw [← h.filter_deletes] at hin
      exact of_decide_eq_true (List.mem_filter.mp hin).2 hdel
    · obtain ⟨k, hk, rfl⟩ := List.mem_map.mp hp
      exact (apart_of_nodup (hsplit ▸ h.nodup_sent)).1 k hk heq
  have hi : i ∈ s.inserts := hqueued hout
  have hleaving : s.leaving = takeMoves (s.held.filter (· ∉ s.deletes)) s.inserts := by
    rw [leaving, afterReset, (mem_of_mem_leaving hmoved).1]
    rfl
  exact ⟨hi, ((h.alone hi).takeMoves h.held).1.mp (hleaving ▸ hmoved)⟩

/-- **A flush of a queue that says each thing once is orderly** for a client that has the held
keys. -/
theorem Proper.orderly (h : s.Proper) (name : String) :
    (s.plan name).flush.Orderly s s.held := by
  rw [h.plan_eq name]
  have hlist (sent : List Insert) :
      Flush.listAfter ⟨name, s.number, (landAll s.leaving.1 s.inserts).2,
        s.deletes ++ s.leaving.2, s.reset⟩ s.held sent =
        (sent.map Insert.toPlacement).foldl place s.leaving.1 :=
    congrArg (List.foldl place · _) h.filter_deletes
  constructor
  case number => rfl
  case inserts => exact h.nodup_sent
  case deletes =>
    refine List.nodup_append.mpr ⟨h.deletes, nodup_moved h.inserts _, ?_⟩
    rintro key hkey _ hmoved rfl
    exact (mem_of_mem_leaving hmoved).2.2 hkey
  case deletesHeld =>
    exact List.forall_mem_append.mpr
      ⟨h.deletesHeld, fun key hkey => (mem_of_mem_leaving hkey).2.1⟩
  case moved =>
    intro i hi hdel
    obtain ⟨before, after, hsplit⟩ := List.append_of_mem hi
    obtain ⟨hqueued, hmoves⟩ := h.moved hsplit hdel
    exact ⟨hqueued, moves_iff.mp hmoves⟩
  case reset =>
    intro hreset
    change s.deletes ++ s.leaving.2 = []
    rw [h.reset hreset, leaving, afterReset, if_pos hreset]
    exact congrArg Prod.snd (takeMoves_nil s.inserts)
  case inPlace =>
    intro before i after hsplit hin
    rw [hlist] at hin ⊢
    exact ((landAll_sent s.inserts h.nodup_leaving hsplit).2.1 hin).symm
  case asQueued =>
    intro before i after hsplit hout
    rw [hlist] at hout
    exact (landAll_sent s.inserts h.nodup_leaving hsplit).2.2 hout

end Stream

namespace Streams

variable {name : String} {t : Stream}

/-- The flushes that go out with an act. -/
def sentBy (s : Streams) : Act → List Stream.Flush
  | .command (.flush name) => [(s.flush name).1]
  | .command (.flushAll skipped) => (s.sentPlans skipped).map (·.2.flush)
  | .command (.keyBy ..) => []
  | .command (.change ..) => []
  | .clear => []

/-- **Queues say each thing once**, over the whole lifetime of a store. -/
theorem proper_life {acts : List Act} (ht : (life acts).1.get? name = some t) : t.Proper := by
  obtain ⟨hlog, hcs⟩ := logged_life acts name
  rw [← hlog.of_get? ht]
  exact (Stream.Proper.adopt t ((agrees_life acts).nodup_held ht)).queueAll hcs

/-- A flush that goes out is the plan of its stream, or it is for a stream that is not there. -/
theorem mem_sentBy {s : Streams} (hs : (s.all.map Prod.fst).Nodup) {a : Act} {f : Stream.Flush}
    (hf : f ∈ s.sentBy a) :
    (∃ t, s.get? f.name = some t ∧ f = (t.plan f.name).flush) ∨
      s.get? f.name = none ∧ f = { name := f.name } := by
  cases a with
  | clear => cases hf
  | command cmd =>
      cases cmd with
      | keyBy name keyOf => cases hf
      | change name c => cases hf
      | flush name =>
          obtain rfl := List.mem_singleton.mp hf
          unfold flush
          split
          · next t ht => exact .inl ⟨t, ht, rfl⟩
          · next hnone => exact .inr ⟨hnone, rfl⟩
      | flushAll skipped =>
          obtain ⟨⟨name, plan⟩, he, rfl⟩ := List.mem_map.mp hf
          obtain ⟨t, ht, heq⟩ := get?_of_mem_plans hs (List.mem_of_mem_filter he)
          obtain rfl : plan = t.plan name := heq
          exact .inl ⟨t, ht, rfl⟩

/-- **What queues, flushes and numbers are like, over the whole lifetime of a store.** Every queue
says each thing once. Every flush that goes out is orderly for the list that the client has of its
stream, unless there is no such stream and nothing to flush. A number stands for one stream for
good, also when streams were dropped; and there are no more numbers than there were acts. -/
theorem orderly_life (acts : List Act) :
    (∀ name t, (life acts).1.get? name = some t → t.Proper ∧ t.number < acts.length) ∧
    (∀ a, ∀ f ∈ (life acts).1.sentBy a,
      (∃ t, (life acts).1.get? f.name = some t ∧ f.Orderly t ((life acts).2 f.name)) ∨
        (life acts).1.get? f.name = none ∧ f = { name := f.name }) ∧
    ∀ more name name' t t', (life acts).1.get? name = some t →
      (life (acts ++ more)).1.get? name' = some t' → t'.number = t.number →
      name' = name ∧ .clear ∉ more := by
  have hagree := agrees_life acts
  refine ⟨fun name t ht => ⟨proper_life ht, ?_⟩, fun a f hf => ?_,
    fun more name name' t t' => eq_of_number_life⟩
  · exact Nat.lt_of_lt_of_le ((numbered_life acts).below _ (Keyed.mem_of_get? ht))
      (nextNumber_life acts)
  · refine (mem_sentBy hagree.names hf).imp_left ?_
    rintro ⟨t, ht, heq⟩
    refine ⟨t, ht, ?_⟩
    rw [hagree.list_eq ht, heq]
    exact (proper_life ht).orderly f.name

section Songs

private def song (id : String) : Value := .obj [("id", .str id)]

private def songAt (id : String) (position : Int) : Stream.Insert :=
  { key := "songs-" ++ id, position, limit := none, updateOnly := false, item := song id }

/-- A client has three songs. A new one is put in front, and then the last one of the three, while
the second one is sent again. -/
private def shuffle : List Act :=
  [.command (.change "songs" (.insertAll [song "a", song "b", song "c"] (-1) none)),
    .command (.flush "songs"),
    .command (.change "songs" (.insertAll [song "d", song "c"] 0 none)),
    .command (.change "songs" (.append (song "b")))]

private def shuffled : Stream :=
  { number := 0
    keyOf := Stream.defaultKey "songs"
    inserts := [songAt "d" 0, songAt "c" 0, songAt "b" (-1)]
    held := ["songs-a", "songs-b", "songs-c"] }

private theorem get?_shuffle : (life shuffle).1.get? "songs" = some shuffled := rfl

/-- The song that moves is taken out and put in, the other one is named the place that it is in by
then, and after everything was dropped a stream of the same name has another number. -/
theorem shuffle_orderly :
    (shuffled.Proper ∧ shuffled.number < 4) ∧
    (shuffled.plan "songs").flush.Orderly shuffled ["songs-a", "songs-b", "songs-c"] ∧
    (shuffled.plan "songs").flush.edits =
      ⟨0, [⟨"songs-d", 0, none, false⟩, ⟨"songs-c", 0, none, false⟩, ⟨"songs-b", 3, none, false⟩],
        ["songs-c"], false⟩ ∧
    ∀ t, (life (shuffle ++ [.clear, .command (.change "songs" (.append (song "a")))])).1.get?
      "songs" = some t → t.number ≠ shuffled.number := by
  obtain ⟨hqueues, hflushes, hnumbers⟩ := orderly_life shuffle
  refine ⟨hqueues "songs" _ get?_shuffle, ?_, by decide, fun t ht heq => ?_⟩
  · rcases hflushes (.command (.flush "songs")) _ (List.mem_singleton_self _) with
      ⟨t, ht, horderly⟩ | ⟨hnone, -⟩
    · obtain rfl := Option.some.inj (get?_shuffle.symm.trans ht)
      exact horderly
    · cases get?_shuffle.symm.trans hnone
  · exact (hnumbers _ "songs" "songs" shuffled t get?_shuffle ht heq).2 List.mem_cons_self

end Songs

end Streams

end ViewSync
