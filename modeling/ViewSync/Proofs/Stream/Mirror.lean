import ViewSync.Streams
import ViewSync.Proofs.Keyed
import Mathlib.Logic.Function.Basic
import Mathlib.Data.List.InsertIdx
import Mathlib.Data.List.Nodup

/-!
# The list at the client

A stream keeps `held`, the keys that it takes the client to hold. This file has the other side: a
client that knows nothing of queues and plans, and does with the edits it is sent what they say. It
starts out empty, and after every flush it holds the very list that the stream takes it to hold.

The one invariant is that no key is held twice. With it, taking out the keys that move one by one is
the same as taking them out together, and an insert of a key in its own place changes nothing.
-/

namespace ViewSync

/-! ## What a client does -/

namespace StreamEdits

/-- Put a key at a position. A negative position is behind all others, and so is one past the
end. -/
def putIn (list : List String) (key : String) (position : Int) : List String :=
  let i := if position < 0 then list.length else min position.toNat list.length
  list.take i ++ key :: list.drop i

/-- Keep so many first entries, or so many last ones if negative. -/
def keepOnly (list : List String) (limit : Int) : List String :=
  if 0 ≤ limit then list.take limit.toNat else list.drop (list.length - (-limit).toNat)

/-- Take out any entry with the key of an insert, put the key in place, and trim. -/
def place (list : List String) (p : Placement) : List String :=
  let list := putIn (list.filter (· ≠ p.key)) p.key p.position
  p.limit.elim list (keepOnly list)

/-- Clear the list on a reset, take out the deletes, and place the inserts in turn. -/
def apply (e : StreamEdits) (list : List String) : List String :=
  let list := if e.reset then [] else list
  e.inserts.foldl place (list.filter (· ∉ e.deletes))

end StreamEdits

namespace Stream

open StreamEdits

/-! ## Positions -/

theorem insertIdx_eq_take_drop (l : List String) (key : String) {i : Nat} (h : i ≤ l.length) :
    l.insertIdx i key = l.take i ++ key :: l.drop i := by
  induction l generalizing i with
  | nil => simp_all
  | cons a l ih =>
      cases i with
      | zero => rfl
      | succ i => simp [ih (Nat.le_of_succ_le_succ h)]

/-- The client and the server put a key in the same place. -/
theorem putIn_eq_insertAt (list : List String) (key : String) (position : Int) :
    putIn list key position = insertAt list key position := by
  unfold putIn insertAt
  by_cases hneg : position < 0
  · simp [hneg]
  · by_cases hend : list.length ≤ position.toNat
    · simp [hneg, hend]
    · have hle : position.toNat ≤ list.length := by omega
      simp [hneg, hend, hle, insertIdx_eq_take_drop]

/-- The client and the server keep the same entries. -/
theorem keepOnly_eq_trim (list : List String) (limit : Int) :
    keepOnly list limit = trim list limit := by
  unfold keepOnly trim
  by_cases h : 0 ≤ limit
  · rw [if_pos h, if_pos h, show limit.toNat = limit.natAbs by omega]
  · rw [if_neg h, if_neg h, show (-limit).toNat = limit.natAbs by omega]

theorem filter_ne_eq_erase {list : List String} (hnd : list.Nodup) (key : String) :
    list.filter (· ≠ key) = list.erase key := by
  rw [hnd.erase_eq_filter]
  exact List.filter_congr fun k _ => by simp [bne, Bool.beq_eq_decide_eq]

/-- A key that is held once is back in its own place. -/
theorem putIn_filter_self {list : List String} (hnd : list.Nodup) {key : String} {i : Nat}
    (h : list.idxOf? key = some i) : putIn (list.filter (· ≠ key)) key i = list := by
  obtain ⟨hlt, hkey⟩ : ∃ hlt : i < list.length, list[i] = key := by
    have := List.findIdx?_eq_some_iff_getElem.mp h
    exact ⟨this.1, by simpa using this.2.1⟩
  have hidx : list.erase key = list.eraseIdx i := by
    rw [← hkey, hnd.erase_getElem i hlt]
  rw [putIn_eq_insertAt, filter_ne_eq_erase hnd, hidx]
  have hlen : (list.eraseIdx i).length = list.length - 1 := List.length_eraseIdx_of_lt hlt
  -- an insert at the index that was erased undoes the erasing
  have hback : (list.eraseIdx i).insertIdx i key = list := by
    rw [← hkey]
    exact List.insertIdx_eraseIdx_getElem hlt
  unfold insertAt
  by_cases hend : (list.eraseIdx i).length ≤ i
  · have hi : i = (list.eraseIdx i).length := by omega
    rw [if_pos (by simp [hend]), ← List.insertIdx_length_self, ← hi, hback]
  · rw [if_neg (by simp; omega), Int.toNat_natCast, hback]

/-! ## No key twice -/

theorem nodup_insertAt {list : List String} (hnd : list.Nodup) {key : String} (h : key ∉ list)
    (position : Int) : (insertAt list key position).Nodup := by
  have hcons : (key :: list).Nodup := List.nodup_cons.mpr ⟨h, hnd⟩
  unfold insertAt
  split
  · exact List.nodup_append_comm.mp hcons
  · next hlt =>
      have hle : position.toNat ≤ list.length := by
        simp only [Bool.or_eq_true, decide_eq_true_eq, not_or] at hlt
        omega
      exact (List.perm_insertIdx key list hle).nodup_iff.mpr hcons

theorem nodup_trim {list : List String} (hnd : list.Nodup) (limit : Int) :
    (trim list limit).Nodup := by
  unfold trim
  split
  · exact hnd.sublist (List.take_sublist ..)
  · exact hnd.sublist (List.drop_sublist ..)

theorem nodup_elim_trim {list : List String} (hnd : list.Nodup) (limit : Option Int) :
    (limit.elim list (trim list)).Nodup := by
  cases limit with
  | none => exact hnd
  | some n => exact nodup_trim hnd n

/-! ## Keys that move -/

/-- Taking out the keys that move one after the other is taking them out together. -/
theorem takeMoves_eq_filter (is : List Insert) {held : List String} (hnd : held.Nodup) :
    (takeMoves held is).1 = held.filter (· ∉ (takeMoves held is).2) := by
  induction is generalizing held with
  | nil => simp [takeMoves]
  | cons i is ih =>
      unfold takeMoves
      split
      · have hrest := ih (hnd.erase i.key)
        rw [← filter_ne_eq_erase hnd] at hrest ⊢
        simp only [hrest, List.filter_filter]
        exact List.filter_congr fun k _ => by simp [Bool.and_comm]
      · exact ih hnd

/-! ## Inserts that land -/

/-- The client does with the insert it is sent what the server did with the one that waited. -/
theorem land_spec {held : List String} (hnd : held.Nodup) (i : Insert) :
    (land held i).1.Nodup ∧
      (land held i).1 = (land held i).2.elim held fun sent => place held sent.toPlacement := by
  unfold land
  split
  · next current hi =>
      -- the key is held: it is sent with its own position, which leaves it in its place
      refine ⟨nodup_elim_trim hnd i.limit, ?_⟩
      have hself := putIn_filter_self hnd hi
      simp only [Option.elim_some, place, hself]
      cases i.limit with
      | none => rfl
      | some n => exact (keepOnly_eq_trim held n).symm
  · next hi =>
      have hout : i.key ∉ held := by
        intro hmem
        obtain ⟨n, hn⟩ := Option.isSome_iff_exists.mp (List.isSome_idxOf?.mpr hmem)
        rw [hi] at hn
        exact absurd hn (by simp)
      have hsame : held.filter (· ≠ i.key) = held := by
        rw [filter_ne_eq_erase hnd, List.erase_of_not_mem hout]
      split
      · exact ⟨hnd, rfl⟩
      · refine ⟨nodup_elim_trim (nodup_insertAt hnd hout i.position) i.limit, ?_⟩
        simp only [Option.elim_some, place, hsame, putIn_eq_insertAt]
        cases i.limit with
        | none => rfl
        | some n => exact (keepOnly_eq_trim _ n).symm

/-- The client's list after all inserts it is sent is the server's after all that waited. -/
theorem landAll_spec (is : List Insert) {held : List String} (hnd : held.Nodup) :
    (landAll held is).1.Nodup ∧
      (landAll held is).1 = ((landAll held is).2.map Insert.toPlacement).foldl place held := by
  induction is generalizing held with
  | nil => exact ⟨hnd, rfl⟩
  | cons i is ih =>
      obtain ⟨hnd', hland⟩ := land_spec hnd i
      obtain ⟨hrest, heq⟩ := ih hnd'
      refine ⟨hrest, ?_⟩
      simp only [landAll, List.map_append, List.foldl_append]
      rw [heq]
      congr 1
      cases hsent : (land held i).2 with
      | none => simp [hland, hsent]
      | some sent => simp [hland, hsent]

/-! ## Flushes -/

/-- **A client that holds the list of a stream holds the planned list after the flush.** -/
theorem apply_plan {s : Stream} (hnd : s.held.Nodup) (name : String) :
    (s.plan name).held.Nodup ∧
      (s.plan name).flush.edits.apply s.held = (s.plan name).held := by
  have hstart : (if s.reset then [] else s.held).Nodup := by
    split
    · exact List.nodup_nil
    · exact hnd
  generalize hbase : (if s.reset then [] else s.held) = base at hstart
  generalize hdel : s.deletes.filter (· ∈ base) = deletes
  have hfil : (base.filter (· ∉ deletes)).Nodup := hstart.filter _
  have hmoves := takeMoves_eq_filter s.inserts hfil
  have hmid : (takeMoves (base.filter (· ∉ deletes)) s.inserts).1.Nodup :=
    hmoves ▸ hfil.filter _
  obtain ⟨hout, hland⟩ := landAll_spec s.inserts hmid
  simp only [plan, Flush.edits, StreamEdits.apply, hbase, hdel]
  refine ⟨hout, ?_⟩
  rw [hland]
  congr 1
  -- the client takes out deletes and moves at once, the server one after the other
  rw [hmoves, List.filter_filter]
  exact List.filter_congr fun k _ => by simp [Bool.and_comm]

/-! ## Keys that come up -/

/-- Taking out the keys that move brings up no key. -/
theorem mem_of_mem_takeMoves {k : String} (is : List Insert) {held : List String}
    (hk : k ∈ (takeMoves held is).1) : k ∈ held := by
  induction is generalizing held with
  | nil => exact hk
  | cons i is ih =>
      unfold takeMoves at hk
      split at hk
      · exact List.mem_of_mem_erase (ih hk)
      · exact ih hk

theorem mem_of_mem_trim {k : String} {held : List String} (limit : Option Int)
    (hk : k ∈ limit.elim held (trim held)) : k ∈ held := by
  cases limit with
  | none => exact hk
  | some n =>
      change k ∈ trim held n at hk
      unfold trim at hk
      split at hk
      · exact List.mem_of_mem_take hk
      · exact List.mem_of_mem_drop hk

theorem mem_insertAt {k key : String} {held : List String} {position : Int}
    (hk : k ∈ insertAt held key position) : k = key ∨ k ∈ held := by
  unfold insertAt at hk
  split at hk
  · exact (List.mem_append.mp hk).symm.imp_left List.mem_singleton.mp
  · exact List.eq_or_mem_of_mem_insertIdx hk

/-- A key that is held after an insert was held before, or comes up with the insert. -/
theorem mem_land {k : String} {held : List String} {i : Insert} (hk : k ∈ (land held i).1) :
    k ∈ held ∨ ∃ sent, (land held i).2 = some sent ∧ sent.key = k := by
  unfold land at hk ⊢
  split at hk
  · exact .inl (mem_of_mem_trim i.limit hk)
  · split at hk
    · exact .inl hk
    · next hlands =>
        rw [if_neg hlands]
        rcases mem_insertAt (mem_of_mem_trim i.limit hk) with rfl | hk
        · exact .inr ⟨i, rfl, rfl⟩
        · exact .inl hk

theorem mem_landAll {k : String} (is : List Insert) {held : List String}
    (hk : k ∈ (landAll held is).1) : k ∈ held ∨ ∃ sent ∈ (landAll held is).2, sent.key = k := by
  induction is generalizing held with
  | nil => exact .inl hk
  | cons i is ih =>
      simp only [landAll] at hk ⊢
      rcases ih hk with hk | ⟨sent, hsent, hkey⟩
      · rcases mem_land hk with hk | ⟨sent, hsent, hkey⟩
        · exact .inl hk
        · exact .inr ⟨sent, List.mem_append_left _ (hsent ▸ List.mem_singleton_self sent), hkey⟩
      · exact .inr ⟨sent, List.mem_append_right _ hsent, hkey⟩

/-- **A key that is held after a flush was held before, or was sent with an insert.** -/
theorem mem_plan {k : String} {s : Stream} {name : String} (hk : k ∈ (s.plan name).held) :
    k ∈ s.held ∨ ∃ i ∈ (s.plan name).flush.inserts, i.key = k := by
  refine (mem_landAll s.inserts hk).imp_left fun hk => ?_
  have hbase := (List.mem_filter.mp (mem_of_mem_takeMoves s.inserts hk)).1
  split at hbase
  · cases hbase
  · exact hbase

end Stream

/-! ## The store and its client -/

namespace Streams

/-- What may happen to the streams of a view. -/
inductive Command where
  /-- A stream is told how to key its items. -/
  | keyBy (name : String) (keyOf : Value → Value)
  /-- A change is queued, or refused. -/
  | change (name : String) (c : Stream.Change)
  /-- What one stream has waiting goes out. -/
  | flush (name : String)
  /-- What every stream has waiting goes out, but for some that are left as they are. -/
  | flushAll (skipped : List String)

/-- The list that the client has of each stream. -/
abbrev Lists := String → List String

/-- The client is sent edits of one of its lists. -/
def Lists.receive (lists : Lists) (name : String) (e : StreamEdits) : Lists :=
  Function.update lists name (e.apply (lists name))

/-- The plans that are sent when every stream but some goes out. -/
def sentPlans (s : Streams) (skipped : List String) : List (String × Stream.Plan) :=
  s.plans.filter fun (name, _) => name ∉ skipped

/-- The next state of both sides. A change that is refused leaves everything as it was. -/
def exec : Streams × Lists → Command → Streams × Lists
  | (s, lists), .keyBy name keyOf => (s.keyBy name keyOf, lists)
  | (s, lists), .change name c =>
    match s.change name c with
    | .ok s => (s, lists)
    | .error _ => (s, lists)
  | (s, lists), .flush name =>
    let (f, s) := s.flush name
    (s, lists.receive name f.edits)
  | (s, lists), .flushAll skipped =>
    let sent := s.sentPlans skipped
    (s.adopt (sent.map fun (name, plan) => (name, plan.held)),
      sent.foldl (fun lists (name, plan) => lists.receive name plan.flush.edits) lists)

/-- Both sides after some commands. They start out with nothing. -/
def run (cmds : List Command) : Streams × Lists := cmds.foldl exec ({}, fun _ => [])

/-- The client's lists are the held ones. -/
structure Agrees (s : Streams) (lists : Lists) : Prop where
  /-- Streams have names of their own. -/
  names : (s.all.map Prod.fst).Nodup
  /-- No key is held twice. -/
  nodup : ∀ name, ((s.held? name).getD []).Nodup
  /-- What is held is what the client has. -/
  lists : ∀ name, lists name = (s.held? name).getD []

/-! ## What the store's operations do to the held keys -/

theorem held?_of_get? {s : Streams} {name : String} {t : Stream} (h : s.get? name = some t) :
    s.held? name = some t.held := by
  simp [held?, h]

theorem get?_modify_self (s : Streams) (name : String) (f : Stream → Stream) :
    (s.modify name f).get? name = (s.get? name).map f :=
  Keyed.get?_modify_self ..

theorem get?_modify_of_ne (s : Streams) {name other : String} (f : Stream → Stream)
    (h : other ≠ name) : (s.modify name f).get? other = s.get? other :=
  Keyed.get?_modify_of_ne _ f h

theorem names_modify (s : Streams) (name : String) (f : Stream → Stream) :
    (s.modify name f).all.map Prod.fst = s.all.map Prod.fst :=
  Keyed.keys_modify ..

/-- A change that leaves the held keys of a stream alone leaves all of them alone. -/
theorem held?_modify {s : Streams} {name : String} {f : Stream → Stream}
    (hf : ∀ t, (f t).held = t.held) (other : String) :
    (s.modify name f).held? other = s.held? other := by
  unfold held?
  by_cases h : other = name
  · subst h
    rw [get?_modify_self]
    cases s.get? other with
    | none => rfl
    | some t => exact congrArg some (hf t)
  · rw [get?_modify_of_ne s f h]

theorem getD_held?_keyBy (s : Streams) (name : String) (keyOf : Value → Value) (other : String) :
    ((s.keyBy name keyOf).held? other).getD [] = (s.held? other).getD [] := by
  unfold keyBy
  split
  · rw [held?_modify (f := fun t => { t with keyOf := keyOf }) fun _ => rfl]
  · next hnew =>
      simp only [held?, get?, Keyed.get?_append]
      cases hold : Keyed.get? s.all other with
      | some t => rfl
      | none =>
          -- the new stream holds nothing, and so did the client
          by_cases h : name = other <;> simp [Keyed.get?, h]

theorem names_keyBy {s : Streams} (h : (s.all.map Prod.fst).Nodup) (name : String)
    (keyOf : Value → Value) : ((s.keyBy name keyOf).all.map Prod.fst).Nodup := by
  unfold keyBy
  split
  · rw [names_modify]
    exact h
  · next hnew =>
      have hout : name ∉ s.all.map Prod.fst := by
        intro hmem
        exact hnew (Keyed.has_of_mem_keys hmem)
      simp only [List.map_append, List.map_cons, List.map_nil]
      exact List.nodup_append_comm.mp (List.nodup_cons.mpr ⟨hout, h⟩)

theorem held_foldl_queueInsert (is : List Stream.Insert) (t : Stream) :
    (is.foldl Stream.queueInsert t).held = t.held := by
  induction is generalizing t with
  | nil => rfl
  | cons i is ih => exact ih (t.queueInsert i)

theorem held_queue (t : Stream) (c : Stream.KeyedChange) : (t.queue c).held = t.held := by
  cases c with
  | inserts is => exact held_foldl_queueInsert is t
  | delete key => rfl
  | reset is => rfl

/-- A change that is accepted queues something, and what is held stays as it is. -/
theorem getD_held?_change {s s' : Streams} {name : String} {c : Stream.Change}
    (h : s.change name c = .ok s') (other : String) :
    (s'.held? other).getD [] = (s.held? other).getD [] := by
  unfold change at h
  split at h
  · exact absurd h (by simp)
  · next keyed _ =>
      obtain rfl := Except.ok.inj h
      rw [held?_modify fun t => held_queue t keyed]
      split
      · rfl
      · exact getD_held?_keyBy ..

theorem names_change {s s' : Streams} (hnd : (s.all.map Prod.fst).Nodup) {name : String}
    {c : Stream.Change} (h : s.change name c = .ok s') : (s'.all.map Prod.fst).Nodup := by
  unfold change at h
  split at h
  · exact absurd h (by simp)
  · obtain rfl := Except.ok.inj h
    rw [names_modify]
    split
    · exact hnd
    · exact names_keyBy hnd ..

/-! ## Both sides in step -/

/-- Nothing was sent, and nothing changed in what is held. -/
theorem Agrees.of_same_held {s s' : Streams} {lists : Lists} (h : Agrees s lists)
    (hnames : (s'.all.map Prod.fst).Nodup)
    (hheld : ∀ name, (s'.held? name).getD [] = (s.held? name).getD []) : Agrees s' lists where
  names := hnames
  nodup name := by rw [hheld]; exact h.nodup name
  lists name := by rw [hheld]; exact h.lists name

/-- **One stream's plan is sent and adopted.** -/
theorem Agrees.receive {s : Streams} {lists : Lists} (h : Agrees s lists) {name : String}
    {t : Stream} (ht : s.get? name = some t) :
    Agrees (s.modify name (·.adopt (t.plan name).held))
      (lists.receive name (t.plan name).flush.edits) := by
  have hnd : t.held.Nodup := by
    have := h.nodup name
    rwa [held?_of_get? ht] at this
  have hlist : lists name = t.held := by
    rw [h.lists name, held?_of_get? ht]
    rfl
  obtain ⟨hplan, happly⟩ := Stream.apply_plan hnd name
  have hself : (s.modify name (·.adopt (t.plan name).held)).held? name
      = some (t.plan name).held := by
    unfold held?
    rw [get?_modify_self, ht]
    rfl
  have hother (other : String) (hne : other ≠ name) :
      (s.modify name (·.adopt (t.plan name).held)).held? other = s.held? other := by
    unfold held?
    rw [get?_modify_of_ne _ _ hne]
  refine ⟨?_, ?_, ?_⟩
  · rw [names_modify]
    exact h.names
  · intro other
    by_cases hne : other = name
    · rw [hne, hself]
      exact hplan
    · rw [hother other hne]
      exact h.nodup other
  · intro other
    by_cases hne : other = name
    · subst hne
      simp only [Lists.receive, Function.update_self, hself, hlist, happly, Option.getD_some]
    · simp only [Lists.receive, Function.update_of_ne hne, hother other hne]
      exact h.lists other

/-- Many plans are sent and adopted, each of them one that its stream still has. -/
theorem Agrees.receiveAll (sent : List (String × Stream.Plan)) {s : Streams} {lists : Lists}
    (h : Agrees s lists) (hnd : (sent.map Prod.fst).Nodup)
    (hsent : ∀ e ∈ sent, ∃ t, s.get? e.1 = some t ∧ e.2 = t.plan e.1) :
    Agrees (s.adopt (sent.map fun (name, plan) => (name, plan.held)))
      (sent.foldl (fun lists (name, plan) => lists.receive name plan.flush.edits) lists) := by
  induction sent generalizing s lists with
  | nil => exact h
  | cons e sent ih =>
      obtain ⟨hout, hrest⟩ := List.nodup_cons.mp hnd
      obtain ⟨t, ht, hplan⟩ := hsent e List.mem_cons_self
      have hstep := h.receive ht
      rw [← hplan] at hstep
      refine ih hstep hrest fun e' he' => ?_
      obtain ⟨t', ht', hplan'⟩ := hsent e' (List.mem_cons_of_mem _ he')
      -- names are apart, so the streams that are left have the plans that they had
      have hne : e'.1 ≠ e.1 := fun heq => hout (heq ▸ List.mem_map_of_mem he')
      exact ⟨t', by rw [get?_modify_of_ne _ _ hne]; exact ht', hplan'⟩

theorem names_plans (s : Streams) :
    List.Sublist (s.plans.map Prod.fst) (s.all.map Prod.fst) := by
  unfold plans
  rw [List.map_map]
  exact List.Sublist.map Prod.fst List.filter_sublist

/-- A plan that is sent is the plan of its stream. -/
theorem get?_of_mem_plans {s : Streams} (hnd : (s.all.map Prod.fst).Nodup)
    {e : String × Stream.Plan} (h : e ∈ s.plans) :
    ∃ t, s.get? e.1 = some t ∧ e.2 = t.plan e.1 := by
  obtain ⟨⟨name, t⟩, hmem, rfl⟩ := List.mem_map.mp h
  exact ⟨t, Keyed.get?_of_mem hnd (List.mem_of_mem_filter hmem), rfl⟩

/-- **Both sides stay in step.** -/
theorem Agrees.exec {s : Streams} {lists : Lists} (h : Agrees s lists) (cmd : Command) :
    Agrees (Streams.exec (s, lists) cmd).1 (Streams.exec (s, lists) cmd).2 := by
  cases cmd with
  | keyBy name keyOf =>
      exact h.of_same_held (names_keyBy h.names name keyOf) (getD_held?_keyBy s name keyOf)
  | change name c =>
      unfold Streams.exec
      dsimp only
      split
      · next s' hs => exact h.of_same_held (names_change h.names hs) (getD_held?_change hs)
      · exact h
  | flush name =>
      unfold Streams.exec Streams.flush
      dsimp only
      split
      · next t ht => exact h.receive ht
      · next hnone =>
          -- a stream that is not there has nothing for the client, whose list is empty
          refine ⟨h.names, h.nodup, fun other => ?_⟩
          by_cases hne : other = name
          · subst hne
            have hempty := h.lists other
            simp only [held?, hnone, Option.map_none, Option.getD_none] at hempty ⊢
            simp [Lists.receive, hempty, Stream.Flush.edits, StreamEdits.apply]
          · simp only [Lists.receive, Function.update_of_ne hne]
            exact h.lists other
  | flushAll skipped =>
      refine h.receiveAll (s.sentPlans skipped) ?_ fun e he => ?_
      · exact h.names.sublist (((List.filter_sublist (l := s.plans)).map _).trans (names_plans s))
      · exact get?_of_mem_plans h.names (List.mem_of_mem_filter he)

theorem agrees_run (cmds : List Command) : Agrees (run cmds).1 (run cmds).2 := by
  have hstart : Agrees {} (fun _ => []) := ⟨List.nodup_nil, fun _ => List.nodup_nil, fun _ => rfl⟩
  unfold run
  generalize ({} : Streams) = s at hstart ⊢
  generalize (fun _ => [] : Lists) = lists at hstart ⊢
  induction cmds generalizing s lists with
  | nil => exact hstart
  | cons cmd cmds ih => exact ih _ _ (hstart.exec cmd)

/-- **The client's list of a stream is the list that the stream takes it to hold.** This is so after
any commands: whatever was queued, for whatever position and limit, and however it went out. -/
theorem list_eq_held (cmds : List Command) (name : String) :
    (run cmds).2 name = ((run cmds).1.held? name).getD [] :=
  (agrees_run cmds).lists name

end Streams

end ViewSync
