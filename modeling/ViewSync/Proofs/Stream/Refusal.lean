import ViewSync.Proofs.Stream.Queue

/-!
# Changes that are refused

A change is made as a whole or not at all. It is refused if the key of one of its items is no text,
or an empty one, or that of an item before it, and it is refused for the first such item. A change
that is refused leaves no trace: no stream comes up for it, no number is used up, and no queue is
touched, so that whatever is done next goes on as if there had been no such change. After a change
that is accepted each of its items is queued under its key.
-/

namespace ViewSync

namespace Stream

variable {keyOf : Value → Value} {items : List Value} {item : Value} {keys : List String}
variable {s : Stream} {i : Insert} {is : List Insert} {fault : KeyFault}

/-- The key of some item is out of order. -/
def HasFault (keyOf : Value → Value) (items : List Value) : Prop :=
  ∃ before item after fault, items = before ++ item :: after ∧ Faulty keyOf before item fault

theorem FirstFault.hasFault (h : FirstFault keyOf items fault) : HasFault keyOf items := by
  obtain ⟨before, item, after, heq, -, hfaulty⟩ := h
  exact ⟨before, item, after, fault, heq, hfaulty⟩

theorem HaveKeys.not_hasFault (h : HaveKeys keyOf items keys) : ¬HasFault keyOf items := by
  rintro ⟨before, item, after, fault, rfl, hfaulty⟩
  exact h.not_faulty hfaulty

/-! ## What is queued for an item -/

/-- A key is not to be inserted, and it waits to be deleted if it is held and no reset waits. -/
structure Dropped (key : String) (s : Stream) : Prop where
  /-- No insert waits for the key. -/
  inserts : ofKey key s.inserts = []
  /-- The key waits to be deleted, if the client has it and keeps its list. -/
  deletes : key ∈ s.held → s.reset = false → key ∈ s.deletes

theorem dropped_queueDelete (s : Stream) (key : String) : Dropped key (s.queueDelete key) where
  inserts := ofKey_eq_nil.mpr fun _ hj => of_decide_eq_true (List.mem_filter.mp hj).2
  deletes hheld hreset := by
    unfold queueDelete
    split
    · exact List.mem_append_right _ (List.mem_singleton_self key)
    · next hwaits =>
        by_contra hout
        exact hwaits (by
          simp [show s.reset = false from hreset, show key ∈ s.held from hheld, hout])

/-- What a change has queued for one of its items under a key. -/
def Change.Queued (item : Value) (key : String) (s : Stream) : Change → Prop
  | .insert _ position limit updateOnly => Alone { key, position, limit, updateOnly, item } s
  | .insertAll _ position limit => Alone { key, position, limit, updateOnly := false, item } s
  | .deleteKey _ => Dropped key s
  | .deleteItem _ => Dropped key s
  | .reset _ => Alone { key, position := -1, limit := none, updateOnly := false, item } s

/-- Inserts of distinct keys are all queued. -/
theorem alone_queueInserts (hnd : (is.map (·.key)).Nodup) (hi : i ∈ is) (s : Stream) :
    Alone i (is.foldl queueInsert s) := by
  obtain ⟨before, after, rfl⟩ := List.append_of_mem hi
  rw [List.foldl_append, List.foldl_cons]
  exact (alone_queueInsert i _).queueInserts (apart_of_nodup hnd).2

/-- **Every item of a change is queued under its key.** -/
theorem queued_queue {c : Change} (h : HaveKeys keyOf c.items keys) (hitem : item ∈ c.items)
    (s : Stream) :
    ∃ key, keyOf item = .str key ∧ key ≠ "" ∧ c.Queued item key (s.queue (c.withKeys keys)) := by
  have hinserts (position : Int) (limit : Option Int) (updateOnly : Bool) :
      ((insertsOf keys c.items position limit updateOnly).map (·.key)).Nodup :=
    (keys_insertsOf h position limit updateOnly).symm ▸ h.nodup
  cases c with
  | insert only position limit updateOnly =>
      obtain ⟨key, hkey, hne, hmem⟩ := mem_insertsOf h hitem position limit updateOnly
      exact ⟨key, hkey, hne, alone_queueInserts (hinserts position limit updateOnly) hmem s⟩
  | insertAll items position limit =>
      obtain ⟨key, hkey, hne, hmem⟩ := mem_insertsOf h hitem position limit false
      exact ⟨key, hkey, hne, alone_queueInserts (hinserts position limit false) hmem s⟩
  | deleteKey key => cases hitem
  | deleteItem only =>
      obtain rfl := List.mem_singleton.mp hitem
      have hsingle : HaveKeys keyOf ([] ++ item :: []) keys := h
      obtain ⟨done, key, rest, rfl, hdone, hkey, hne, -⟩ := hsingle.split
      obtain rfl := List.length_eq_zero_iff.mp hdone.length_eq
      exact ⟨key, hkey, hne, dropped_queueDelete s key⟩
  | reset items =>
      obtain ⟨key, hkey, hne, hmem⟩ := mem_insertsOf h hitem (-1) none false
      exact ⟨key, hkey, hne, ofKey_of_mem (hinserts (-1) none false) hmem, List.not_mem_nil⟩

end Stream

namespace Streams

variable {s s' : Streams} {name : String} {c : Stream.Change}

/-! ## A change, step by step -/

/-- Queue a change, step by step, in a store that keeps what was done to it before a failure. -/
def enqueue (name : String) (c : Stream.Change) : ExceptT Error (StateM Streams) Unit := do
  let s ← get
  match c.keyed (s.keyOf name) with
  | .error fault => throw (.badKey name fault)
  | .ok keyed =>
    unless s.has name do
      set (s.keyBy name (s.keyOf name))
    let s ← get
    set (s.modify name (·.queue keyed))

/-- **Nothing is done to a store before a change can fail.** -/
theorem run_enqueue (s : Streams) (name : String) (c : Stream.Change) :
    (enqueue name c).run.run s =
      match s.change name c with
      | .ok s' => (.ok (), s')
      | .error e => (.error e, s) := by
  have hget (s : Streams) :
      (get : ExceptT Error (StateM Streams) Streams).run.run s = pure (.ok s, s) := rfl
  unfold Streams.change enqueue
  simp only [ExceptT.run_bind, StateT.run_bind, hget, pure_bind]
  cases c.keyed (s.keyOf name) with
  | error fault => rfl
  | ok keyed => cases s.has name <;> rfl

/-! ## Changes as a whole -/

/-- A change is refused for its first fault, and the store goes on without it. -/
structure Refuses (s : Streams) (name : String) (c : Stream.Change) (e : Error) : Prop where
  /-- The failure is about the first item that is at fault. -/
  firstFault : ∃ fault, e = .badKey name fault ∧
    Stream.FirstFault (s.keyOf name) c.items fault
  /-- Nothing is left of the steps that were taken. -/
  unchanged : (enqueue name c).run.run s = (.error e, s)
  /-- Whatever is done next, it comes to the same as without the change. -/
  later : ∀ (lists : Lists) (acts : List Act),
    acts.foldl act (act (s, lists) (.command (.change name c))) = acts.foldl act (s, lists)

/-- A change is accepted with all of its items. -/
structure Accepts (s : Streams) (name : String) (c : Stream.Change) (s' : Streams) : Prop where
  /-- The change goes through. -/
  changed : (enqueue name c).run.run s = (.ok (), s')
  /-- Every item is queued under its key, and so is a key that is deleted by itself. -/
  queued : ∃ t, s'.get? name = some t ∧
    (∀ item ∈ c.items, ∃ key, s.keyOf name item = .str key ∧ key ≠ "" ∧ c.Queued item key t) ∧
    ∀ key, c = .deleteKey key → t.Dropped key

theorem refuses_of_change {e : Error} (h : s.change name c = .error e) : s.Refuses name c e where
  firstFault := by
    unfold change at h
    split at h
    · next fault hkeyed =>
        exact ⟨fault, (Except.error.inj h).symm, Stream.firstFault_of_keyed hkeyed⟩
    · cases h
  unchanged := by rw [run_enqueue, h]
  later lists acts := by
    have hexec : exec (s, lists) (.change name c) = (s, lists) := by simp only [exec, h]
    exact congrArg (List.foldl act · acts) hexec

theorem accepts_of_change (h : s.change name c = .ok s') :
    s.Accepts name c s' ∧ ∃ keys, Stream.HaveKeys (s.keyOf name) c.items keys := by
  have hrun : (enqueue name c).run.run s = (.ok (), s') := by rw [run_enqueue, h]
  unfold change at h
  split at h
  · cases h
  · next keyed hkeyed =>
      obtain ⟨keys, rfl, hkeys⟩ := Stream.haveKeys_of_keyed hkeyed
      obtain rfl := Except.ok.inj h
      -- the stream is there, or it comes up for the change
      have hup : ((if s.has name then s else s.keyBy name (s.keyOf name)).get? name).isSome := by
        split
        · next hhas => exact hhas
        · exact isSome_get?_keyBy ..
      obtain ⟨t, ht⟩ := Option.isSome_iff_exists.mp hup
      refine ⟨⟨hrun, t.queue (c.withKeys keys), ?_, fun item hitem => ?_, ?_⟩, keys, hkeys⟩
      · rw [get?_modify_self, ht]
        rfl
      · exact Stream.queued_queue hkeys hitem t
      · rintro key rfl
        exact Stream.dropped_queueDelete t key

/-- **A change is made as a whole or not at all.** It is refused if and only if the key of one of
its items is out of order; then it is refused for the first such item, and leaves no trace. If it is
accepted, every item is queued under its key. -/
theorem change_whole (s : Streams) (name : String) (c : Stream.Change) :
    ((∃ e, s.change name c = .error e) ↔ Stream.HasFault (s.keyOf name) c.items) ∧
    (∀ e, s.change name c = .error e → s.Refuses name c e) ∧
    ∀ s', s.change name c = .ok s' → s.Accepts name c s' := by
  refine ⟨⟨?_, fun hfault => ?_⟩, fun e => refuses_of_change, fun s' h => (accepts_of_change h).1⟩
  · rintro ⟨e, he⟩
    obtain ⟨fault, -, hfirst⟩ := (refuses_of_change he).firstFault
    exact hfirst.hasFault
  · cases h : s.change name c with
    | error e => exact ⟨e, rfl⟩
    | ok s' =>
        obtain ⟨-, keys, hkeys⟩ := accepts_of_change h
        exact absurd hfault hkeys.not_hasFault

section Tracks

private def track (id : String) : Value := .obj [("id", .str id)]

/-- The third of four tracks has the key of the first one, and the last one has none. -/
private def tracks : Stream.Change :=
  .insertAll [track "a", track "b", track "a", .null] 0 none

/-- The tracks are refused for the third one, and no stream comes up for the first two. -/
theorem tracks_refused :
    Stream.HasFault (Stream.defaultKey "tracks") tracks.items ∧
      Stream.FirstFault (Stream.defaultKey "tracks") tracks.items (.repeated "tracks-a") ∧
      (enqueue "tracks" tracks).run.run {} =
        (.error (.badKey "tracks" (.repeated "tracks-a")), {}) := by
  have hrefused : change {} "tracks" tracks = .error (.badKey "tracks" (.repeated "tracks-a")) :=
    rfl
  obtain ⟨hiff, herror, -⟩ := change_whole {} "tracks" tracks
  obtain ⟨⟨fault, heq, hfirst⟩, hunchanged, -⟩ := herror _ hrefused
  obtain rfl : .repeated "tracks-a" = fault := (Error.badKey.inj heq).2
  exact ⟨hiff.mp ⟨_, hrefused⟩, hfirst, hunchanged⟩

end Tracks

end Streams

end ViewSync
