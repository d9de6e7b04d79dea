import ViewSync.Proofs.Stream.Numbers

/-!
# Inserts that may only update

An insert that may only update is meant to change an entry that the client has and to do nothing
else. For a key that the client does not have, nothing is sent. For one that it has, the entry is
sent anew and stays where it is, as long as the insert does not ask for another position: an insert
that moves its key takes the key out first, and does not find it any more when it is to be put in.
-/

namespace ViewSync

namespace Stream

/-! ## What is queued for a key -/

/-- A change says something of a key. -/
def KeyedChange.Names (key : String) : KeyedChange → Prop
  | .inserts is => ∃ i ∈ is, i.key = key
  | .delete k => k = key
  | .reset _ => True

/-- No insert of a change comes with a limit. -/
def KeyedChange.Unlimited : KeyedChange → Prop
  | .inserts is => ∀ i ∈ is, i.limit = none
  | .delete _ => True
  | .reset is => ∀ i ∈ is, i.limit = none

/-- An insert is what some changes say last of its key. -/
def LastWord (i : Insert) (cs : List KeyedChange) : Prop :=
  ∃ before is js after, cs = before ++ .inserts (is ++ i :: js) :: after ∧
    (∀ j ∈ js, j.key ≠ i.key) ∧ ∀ c ∈ after, ¬c.Names i.key

/-- The queue that some changes make up. -/
def queueAll (s : Stream) (cs : List KeyedChange) : Stream := cs.foldl queue s

/-- The inserts of a key in a list of them. -/
def ofKey (key : String) (is : List Insert) : List Insert := is.filter (·.key = key)

/-- An insert is all that waits for its key. -/
structure Alone (i : Insert) (s : Stream) : Prop where
  /-- No other insert waits for the key. -/
  inserts : ofKey i.key s.inserts = [i]
  /-- The key does not wait to be deleted. -/
  deletes : i.key ∉ s.deletes

variable {i j : Insert} {s : Stream} {cs : List KeyedChange} {held : List String}

theorem ofKey_append (key : String) (is js : List Insert) :
    ofKey key (is ++ js) = ofKey key is ++ ofKey key js :=
  List.filter_append ..

theorem ofKey_eq_nil {key : String} {is : List Insert} :
    ofKey key is = [] ↔ ∀ j ∈ is, j.key ≠ key := by
  simp [ofKey]

theorem ofKey_filter_ne {key other : String} (h : key ≠ other) (is : List Insert) :
    ofKey key (is.filter (·.key ≠ other)) = ofKey key is := by
  rw [ofKey, ofKey, List.filter_filter]
  refine List.filter_congr fun j _ => ?_
  by_cases hj : j.key = key
  · simp [hj, h]
  · simp [hj]

theorem alone_queueInsert (i : Insert) (s : Stream) : Alone i (s.queueInsert i) where
  inserts := by
    have hnone : ofKey i.key (s.inserts.filter (·.key ≠ i.key)) = [] :=
      ofKey_eq_nil.mpr fun j hj => of_decide_eq_true (List.mem_filter.mp hj).2
    rw [queueInsert, ofKey_append, hnone]
    simp [ofKey]
  deletes h := by simpa using (List.mem_filter.mp h).2

/-- Inserts of other keys leave it alone. -/
theorem Alone.queueInsert (h : Alone i s) (hne : j.key ≠ i.key) : Alone i (s.queueInsert j) where
  inserts := by
    have hnone : ofKey i.key [j] = [] := ofKey_eq_nil.mpr (by simpa using hne)
    rw [Stream.queueInsert, ofKey_append, ofKey_filter_ne (Ne.symm hne), h.inserts, hnone]
    rfl
  deletes hin := h.deletes (List.mem_of_mem_filter hin)

theorem Alone.queueInserts {js : List Insert} (h : Alone i s) (hjs : ∀ j ∈ js, j.key ≠ i.key) :
    Alone i (js.foldl Stream.queueInsert s) := by
  induction js generalizing s with
  | nil => exact h
  | cons j js ih =>
      obtain ⟨hj, hjs⟩ := List.forall_mem_cons.mp hjs
      exact ih (h.queueInsert hj) hjs

theorem Alone.queueDelete {key : String} (h : Alone i s) (hne : key ≠ i.key) :
    Alone i (s.queueDelete key) where
  inserts := (ofKey_filter_ne (Ne.symm hne) s.inserts).trans h.inserts
  deletes hin := by
    unfold Stream.queueDelete at hin
    dsimp only at hin
    split at hin
    · rcases List.mem_append.mp hin with hin | hin
      · exact h.deletes hin
      · exact hne (List.mem_singleton.mp hin).symm
    · exact h.deletes hin

theorem Alone.queue {c : KeyedChange} (h : Alone i s) (hc : ¬c.Names i.key) :
    Alone i (s.queue c) := by
  cases c with
  | inserts js => exact h.queueInserts fun j hj hkey => hc ⟨j, hj, hkey⟩
  | delete key => exact h.queueDelete hc
  | reset js => exact absurd trivial hc

/-- **The last word on a key is all that waits for it.** -/
theorem LastWord.alone (h : LastWord i cs) (s : Stream) : Alone i (s.queueAll cs) := by
  obtain ⟨before, is, js, after, rfl, hjs, hafter⟩ := h
  have hword : Alone i ((s.queueAll before).queue (.inserts (is ++ i :: js))) := by
    change Alone i ((is ++ i :: js).foldl Stream.queueInsert (s.queueAll before))
    rw [List.foldl_append, List.foldl_cons]
    exact (alone_queueInsert i _).queueInserts hjs
  rw [queueAll, List.foldl_append, List.foldl_cons]
  exact List.foldlRecOn (motive := Alone i) _ _ hword fun _ hs c hc => hs.queue (hafter c hc)

/-- Without limits in the changes there are none in the queue. -/
theorem unlimited_queueAll (hs : ∀ j ∈ s.inserts, j.limit = none)
    (hcs : ∀ c ∈ cs, c.Unlimited) : ∀ j ∈ (s.queueAll cs).inserts, j.limit = none := by
  have hinsert (s : Stream) (i : Insert) (hs : ∀ j ∈ s.inserts, j.limit = none)
      (hi : i.limit = none) : ∀ j ∈ (s.queueInsert i).inserts, j.limit = none := by
    intro j hj
    rcases List.mem_append.mp hj with hj | hj
    · exact hs j (List.mem_of_mem_filter hj)
    · exact (List.mem_singleton.mp hj) ▸ hi
  refine List.foldlRecOn (motive := fun s : Stream => ∀ j ∈ s.inserts, j.limit = none) _ _ hs
    fun s hs c hc => ?_
  have hc := hcs c hc
  cases c with
  | inserts is =>
      exact List.foldlRecOn (motive := fun s : Stream => ∀ j ∈ s.inserts, j.limit = none) _ _ hs
        fun s hs i hi => hinsert s i hs (hc i hi)
  | delete key => exact fun j hj => hs j (List.mem_of_mem_filter hj)
  | reset is => exact hc

/-! ## Keys that move -/

theorem moves_iff : moves held i = true ↔
    i.key ∈ held ∧ 0 ≤ i.position ∧ (held.idxOf i.key : Int) ≠ i.position := by
  unfold moves
  cases hi : held.idxOf? i.key with
  | none =>
      have hout : i.key ∉ held := fun hin => by
        rw [← List.isSome_idxOf?, hi] at hin
        cases hin
      simp [hout]
  | some current =>
      have hin : i.key ∈ held := by
        rw [← List.isSome_idxOf?, hi]
        rfl
      have hcurrent : held.idxOf i.key = current := by
        rw [List.idxOf_eq_getD_idxOf?, hi, Option.getD_some]
      simp only [hin, hcurrent, Bool.and_eq_true, decide_eq_true_eq, true_and]
      omega

theorem takeMoves_append (held : List String) (is js : List Insert) :
    takeMoves held (is ++ js) =
      ((takeMoves (takeMoves held is).1 js).1,
        (takeMoves held is).2 ++ (takeMoves (takeMoves held is).1 js).2) := by
  induction is generalizing held with
  | nil => rfl
  | cons i is ih =>
      rw [List.cons_append, takeMoves, takeMoves]
      split
      · rw [ih]
        rfl
      · exact ih held

/-- Only keys of inserts move. -/
theorem not_mem_moved {key : String} {is : List Insert} (h : ∀ j ∈ is, j.key ≠ key)
    (held : List String) : key ∉ (takeMoves held is).2 := by
  induction is generalizing held with
  | nil => exact List.not_mem_nil
  | cons i is ih =>
      obtain ⟨hi, his⟩ := List.forall_mem_cons.mp h
      unfold takeMoves
      split
      · exact List.not_mem_cons_of_ne_of_not_mem (Ne.symm hi) (ih his _)
      · exact ih his held

theorem mem_takeMoves_iff {key : String} {is : List Insert} (h : ∀ j ∈ is, j.key ≠ key) :
    key ∈ (takeMoves held is).1 ↔ key ∈ held := by
  induction is generalizing held with
  | nil => exact Iff.rfl
  | cons i is ih =>
      obtain ⟨hi, his⟩ := List.forall_mem_cons.mp h
      unfold takeMoves
      split
      · exact (ih his).trans (List.mem_erase_of_ne (Ne.symm hi))
      · exact ih his

theorem nodup_takeMoves (hnd : held.Nodup) (is : List Insert) : (takeMoves held is).1.Nodup := by
  rw [takeMoves_eq_filter is hnd]
  exact hnd.filter _

/-- The list of a stream when the insert of a key gets its turn to move: the deletes are out of it,
and so are the keys that move before. -/
def listAt (s : Stream) (key : String) : List String :=
  (takeMoves (s.held.filter (· ∉ s.deletes)) (s.inserts.takeWhile (·.key ≠ key))).1

theorem Alone.split (h : Alone i s) : ∃ after,
    s.inserts = s.inserts.takeWhile (·.key ≠ i.key) ++ i :: after ∧
      (∀ j ∈ s.inserts.takeWhile (·.key ≠ i.key), j.key ≠ i.key) ∧ ∀ j ∈ after, j.key ≠ i.key := by
  obtain ⟨before, after, hsplit, hbefore, -, hafter⟩ := List.filter_eq_cons_iff.mp h.inserts
  have hbefore : ∀ j ∈ before, j.key ≠ i.key := by simpa using hbefore
  have htake : s.inserts.takeWhile (·.key ≠ i.key) = before := by
    rw [hsplit, List.takeWhile_append_of_pos (by simpa using hbefore)]
    simp
  rw [htake]
  exact ⟨after, hsplit, hbefore, ofKey_eq_nil.mp hafter⟩

/-- **A key moves when its insert does, at its turn.** -/
theorem Alone.takeMoves (h : Alone i s) (hnd : s.held.Nodup) :
    let out := Stream.takeMoves (s.held.filter (· ∉ s.deletes)) s.inserts
    (i.key ∈ out.2 ↔ moves (s.listAt i.key) i = true) ∧
      (i.key ∈ out.1 ↔ i.key ∈ s.held ∧ moves (s.listAt i.key) i = false) := by
  obtain ⟨after, hsplit, hbefore, hafter⟩ := h.split
  have hturn : (s.listAt i.key).Nodup := nodup_takeMoves (hnd.filter _) _
  have hheld : i.key ∈ s.listAt i.key ↔ i.key ∈ s.held := by
    rw [listAt, mem_takeMoves_iff hbefore, List.mem_filter]
    simp [h.deletes]
  have hlist : (Stream.takeMoves (s.held.filter (· ∉ s.deletes))
      (s.inserts.takeWhile (·.key ≠ i.key))).1 = s.listAt i.key := rfl
  dsimp only
  rw [hsplit, takeMoves_append, hlist, Stream.takeMoves, ← hheld]
  cases moves (s.listAt i.key) i with
  | true =>
      have hout : i.key ∉ (s.listAt i.key).erase i.key := hturn.not_mem_erase
      simp [mem_takeMoves_iff hafter, hout]
  | false =>
      have hmoved := not_mem_moved hbefore (s.held.filter (· ∉ s.deletes))
      refine ⟨?_, ?_⟩
      · rw [List.mem_append]
        exact iff_of_false (fun h => h.elim hmoved (not_mem_moved hafter _)) Bool.false_ne_true
      · exact (mem_takeMoves_iff hafter).trans (and_iff_left rfl).symm

/-! ## Inserts that land -/

/-- A key that is held stays held, and its inserts are sent with their items. -/
theorem landAll_of_mem {key : String} {is : List Insert} (hin : key ∈ held)
    (hfree : ∀ j ∈ is, j.limit = none) :
    key ∈ (landAll held is).1 ∧
      (ofKey key (landAll held is).2).map Insert.item = (ofKey key is).map Insert.item := by
  induction is generalizing held with
  | nil => exact ⟨hin, rfl⟩
  | cons i is ih =>
      obtain ⟨hi, his⟩ := List.forall_mem_cons.mp hfree
      -- what is sent for one insert is that insert with its item, unless it is for a key not held
      have hland : key ∈ (land held i).1 ∧
          (ofKey key (land held i).2.toList).map Insert.item =
            (ofKey key [i]).map Insert.item := by
        unfold land
        rw [hi]
        split
        · refine ⟨hin, ?_⟩
          by_cases hkey : i.key = key <;> simp [ofKey, hkey]
        · next hnone =>
            have hne : i.key ≠ key := by
              rintro rfl
              rw [← List.isSome_idxOf?, hnone] at hin
              cases hin
            split
            · exact ⟨hin, by simp [ofKey, hne]⟩
            · refine ⟨?_, rfl⟩
              change key ∈ insertAt held i.key i.position
              unfold insertAt
              split
              · exact List.mem_append_left _ hin
              · next hat =>
                  rw [List.mem_insertIdx (by simp at hat; omega)]
                  exact .inr hin
      obtain ⟨hmem, hitems⟩ := ih hland.1 his
      refine ⟨hmem, ?_⟩
      rw [landAll, ofKey_append, List.map_append, hland.2, hitems, ← List.map_append,
        ← ofKey_append]
      rfl

/-- For a key that is not held, inserts that may only update are not sent, and it does not come
up. -/
theorem landAll_of_not_mem {key : String} {is : List Insert} (hout : key ∉ held)
    (hup : ∀ j ∈ ofKey key is, j.updateOnly = true) :
    key ∉ (landAll held is).1 ∧ ofKey key (landAll held is).2 = [] := by
  have hsent : ofKey key (landAll held is).2 = [] := by
    induction is generalizing held with
    | nil => rfl
    | cons i is ih =>
        have hland : ofKey key (land held i).2.toList = [] := by
          unfold land
          by_cases hkey : i.key = key
          · have hnone : held.idxOf? i.key = none := by
              rw [← Option.not_isSome_iff_eq_none, List.isSome_idxOf?, hkey]
              exact hout
            rw [hnone]
            dsimp only
            rw [if_pos (hup i (by simp [ofKey, hkey]))]
            rfl
          · split
            · exact ofKey_eq_nil.mpr (by simpa using hkey)
            · split
              · rfl
              · exact ofKey_eq_nil.mpr (by simpa using hkey)
        have hstill : key ∉ (land held i).1 := fun hin => by
          rcases mem_land hin with hin | ⟨sent, hsent, hkey⟩
          · exact hout hin
          · rw [hsent] at hland
            exact ofKey_eq_nil.mp hland sent (List.mem_singleton_self sent) hkey
        have hrest : ∀ j ∈ ofKey key is, j.updateOnly = true := fun j hj =>
          hup j (List.mem_filter.mpr
            ⟨List.mem_cons_of_mem _ (List.mem_of_mem_filter hj), (List.mem_filter.mp hj).2⟩)
        rw [landAll, ofKey_append, hland, ih hstill hrest]
        rfl
  refine ⟨fun hin => ?_, hsent⟩
  rcases mem_landAll is hin with hin | ⟨sent, hmem, hkey⟩
  · exact hout hin
  · exact ofKey_eq_nil.mp hsent sent hmem hkey

/-! ## Plans -/

namespace Plan

/-- The key stays, and the one insert of it brings the item. -/
structure Updates (p : Plan) (i : Insert) : Prop where
  /-- The client has the key then. -/
  held : i.key ∈ p.held
  /-- One insert brings the item. -/
  inserts : (ofKey i.key p.flush.inserts).map Insert.item = [i.item]
  /-- The key is not deleted. -/
  deletes : i.key ∉ p.flush.deletes

/-- The key is deleted, and no insert brings it back. -/
structure Removes (p : Plan) (key : String) : Prop where
  /-- The client does not have the key then. -/
  held : key ∉ p.held
  /-- No insert brings it. -/
  inserts : ofKey key p.flush.inserts = []
  /-- The key is deleted. -/
  deletes : key ∈ p.flush.deletes

/-- Nothing is said of the key, and it does not come up. -/
structure Ignores (p : Plan) (key : String) : Prop where
  /-- The client does not have the key then. -/
  held : key ∉ p.held
  /-- No insert brings it. -/
  inserts : ofKey key p.flush.inserts = []
  /-- The key is not deleted. -/
  deletes : key ∉ p.flush.deletes

end Plan

/-- Without a reset, moves are made in what is held and not deleted. -/
theorem plan_of_reset_eq_false (hreset : s.reset = false) (name : String) :
    s.plan name =
      let out := takeMoves (s.held.filter (· ∉ s.deletes)) s.inserts
      ⟨⟨name, s.number, (landAll out.1 s.inserts).2, s.deletes.filter (· ∈ s.held) ++ out.2, false⟩,
        (landAll out.1 s.inserts).1⟩ := by
  have hsame : s.held.filter (· ∉ s.deletes.filter (· ∈ s.held)) =
      s.held.filter (· ∉ s.deletes) :=
    List.filter_congr fun k hk => by simp [hk]
  unfold plan
  rw [hreset, if_neg Bool.false_ne_true]
  dsimp only
  rw [hsame]

/-- **What becomes of a key whose last word is an insert that may only update.** -/
theorem plan_updateOnly (h : Alone i s) (hup : i.updateOnly = true) (hnd : s.held.Nodup)
    (hreset : s.reset = false) (hfree : ∀ j ∈ s.inserts, j.limit = none) (name : String) :
    (i.key ∈ s.held → moves (s.listAt i.key) i = false → (s.plan name).Updates i) ∧
      (i.key ∈ s.held → moves (s.listAt i.key) i = true → (s.plan name).Removes i.key) ∧
      (i.key ∉ s.held → (s.plan name).Ignores i.key) := by
  obtain ⟨hmoved, hleft⟩ := h.takeMoves hnd
  have hdeletes : i.key ∈ (s.plan name).flush.deletes ↔ moves (s.listAt i.key) i = true := by
    rw [plan_of_reset_eq_false hreset, ← hmoved, List.mem_append]
    exact or_iff_right fun hin => h.deletes (List.mem_of_mem_filter hin)
  -- a key that is out when the inserts land stays out
  have hgone (hin : i.key ∉ (Stream.takeMoves (s.held.filter (· ∉ s.deletes)) s.inserts).1) :
      i.key ∉ (s.plan name).held ∧ ofKey i.key (s.plan name).flush.inserts = [] := by
    rw [plan_of_reset_eq_false hreset]
    refine landAll_of_not_mem hin fun j hj => ?_
    rw [h.inserts] at hj
    exact (List.mem_singleton.mp hj) ▸ hup
  refine ⟨fun hheld hstays => ?_, fun hheld hmoves => ?_, fun hheld => ?_⟩
  · have hin := hleft.mpr ⟨hheld, hstays⟩
    have hland := landAll_of_mem hin hfree
    rw [h.inserts] at hland
    refine ⟨?_, ?_, fun hin => Bool.false_ne_true (hstays.symm.trans (hdeletes.mp hin))⟩
    · rw [plan_of_reset_eq_false hreset]
      exact hland.1
    · rw [plan_of_reset_eq_false hreset]
      exact hland.2
  · obtain ⟨hout, hnone⟩ := hgone fun hin =>
      Bool.false_ne_true ((hleft.mp hin).2.symm.trans hmoves)
    exact ⟨hout, hnone, hdeletes.mpr hmoves⟩
  · obtain ⟨hout, hnone⟩ := hgone fun hin => hheld (hleft.mp hin).1
    refine ⟨hout, hnone, fun hin => hheld ?_⟩
    have hturn := (moves_iff.mp (hdeletes.mp hin)).1
    obtain ⟨_, -, hbefore, -⟩ := h.split
    exact List.mem_of_mem_filter ((mem_takeMoves_iff hbefore).mp hturn)

end Stream

/-! ## The changes that make up a queue -/

namespace Streams

/-- The changes of a stream that were accepted since its queue last went out, after one more
command. -/
def record (name : String) (s : Streams) (log : List Stream.KeyedChange) :
    Command → List Stream.KeyedChange
  | .keyBy .. => log
  | .change other c =>
    match c.keyed (s.keyOf other) with
    | .ok keyed => if other = name then log ++ [keyed] else log
    | .error _ => log
  | .flush other => if other = name then [] else log
  | .flushAll skipped => if name ∈ skipped then log else []

/-- What becomes of a log as commands are carried out. -/
def logFrom (name : String) : Streams × Lists → List Stream.KeyedChange → List Command →
    List Stream.KeyedChange
  | _, cs, [] => cs
  | state, cs, cmd :: cmds => logFrom name (exec state cmd) (record name state.1 cs cmd) cmds

/-- The changes of a stream that were accepted since its queue last went out. -/
def log (name : String) (cmds : List Command) : List Stream.KeyedChange :=
  logFrom name ({}, fun _ => []) [] cmds

/-- The queue of a stream is made up of the changes in a log. -/
def Logged (name : String) (s : Streams) (log : List Stream.KeyedChange) : Prop :=
  match s.get? name with
  | some t => (t.adopt t.held).queueAll log = t
  | none => log = []

end Streams

namespace Stream

/-- How items are keyed makes no difference to what is queued. -/
theorem queue_withKeyOf (s : Stream) (f : Value → Value) (c : KeyedChange) :
    queue { s with keyOf := f } c = { s.queue c with keyOf := f } := by
  cases c with
  | inserts is =>
      change is.foldl queueInsert _ = { is.foldl queueInsert s with keyOf := f }
      induction is generalizing s with
      | nil => rfl
      | cons i is ih => exact ih (s.queueInsert i)
  | delete key => rfl
  | reset is => rfl

theorem queueAll_withKeyOf (s : Stream) (f : Value → Value) (cs : List KeyedChange) :
    queueAll { s with keyOf := f } cs = { s.queueAll cs with keyOf := f } := by
  unfold queueAll
  induction cs generalizing s with
  | nil => rfl
  | cons c cs ih => rw [List.foldl_cons, List.foldl_cons, queue_withKeyOf, ih]

/-- Queueing a change touches nothing but the queue. -/
theorem adopt_queue (s : Stream) (c : KeyedChange) (held : List String) :
    (s.queue c).adopt held = s.adopt held := by
  cases c with
  | inserts is =>
      change (is.foldl queueInsert s).adopt held = s.adopt held
      induction is generalizing s with
      | nil => rfl
      | cons i is ih => exact ih (s.queueInsert i)
  | delete key => rfl
  | reset is => rfl

theorem adopt_of_not_isWaiting {s : Stream} (h : s.isWaiting = false) : s.adopt s.held = s := by
  obtain ⟨number, keyOf, inserts, deletes, reset, held⟩ := s
  simp only [isWaiting, Bool.or_eq_false_iff, Bool.not_eq_false', List.isEmpty_iff] at h
  obtain ⟨⟨rfl, rfl⟩, rfl⟩ := h
  rfl

end Stream

namespace Streams

variable {name : String} {s : Streams} {cs : List Stream.KeyedChange}

theorem Logged.of_get? {t : Stream} (h : s.Logged name cs) (ht : s.get? name = some t) :
    (t.adopt t.held).queueAll cs = t := by
  unfold Logged at h
  rwa [ht] at h

theorem logged_of_get? {t : Stream} (ht : s.get? name = some t)
    (h : (t.adopt t.held).queueAll cs = t) : s.Logged name cs := by
  unfold Logged
  rwa [ht]

/-- Only what is said of the stream itself matters. -/
theorem Logged.congr {s' : Streams} (h : s.Logged name cs) (hget : s'.get? name = s.get? name) :
    s'.Logged name cs := by
  unfold Logged
  rw [hget]
  exact h

theorem Logged.keyBy (h : s.Logged name cs) (other : String) (f : Value → Value) :
    (s.keyBy other f).Logged name cs := by
  unfold Streams.keyBy
  split
  · by_cases hne : name = other
    · subst hne
      unfold Logged at h ⊢
      rw [get?_modify_self]
      cases ht : s.get? name with
      | none =>
          rw [ht] at h
          exact h
      | some t =>
          rw [ht] at h
          have hkeyed := Stream.queueAll_withKeyOf (t.adopt t.held) f cs
          rw [show (t.adopt t.held).queueAll cs = t from h] at hkeyed
          exact hkeyed
    · exact h.congr (get?_modify_of_ne s _ hne)
  · next hnew =>
      by_cases hne : name = other
      · subst hne
        have hnone : s.get? name = none := by simpa [has] using hnew
        unfold Logged at h
        rw [hnone] at h
        obtain rfl : cs = [] := h
        refine logged_of_get? (t := { number := s.nextNumber, keyOf := f }) ?_ rfl
        simp only [get?] at hnone
        simp [get?, Keyed.get?_append, hnone, Keyed.get?]
      · refine h.congr ?_
        simp [get?, Keyed.get?_append, Keyed.get?, Ne.symm hne]

/-- A stream that is told how to key its items is there. -/
theorem isSome_get?_keyBy (s : Streams) (name : String) (f : Value → Value) :
    ((s.keyBy name f).get? name).isSome := by
  unfold Streams.keyBy
  split
  · next hhas =>
      rw [get?_modify_self, Option.isSome_map]
      exact hhas
  · simp [get?, Keyed.get?_append, Keyed.get?]

theorem Logged.queue (h : s.Logged name cs) (hhas : (s.get? name).isSome)
    (k : Stream.KeyedChange) : (s.modify name (·.queue k)).Logged name (cs ++ [k]) := by
  obtain ⟨t, ht⟩ := Option.isSome_iff_exists.mp hhas
  refine logged_of_get? (t := t.queue k) (by rw [get?_modify_self, ht]; rfl) ?_
  rw [held_queue, Stream.adopt_queue, Stream.queueAll, List.foldl_append]
  exact congrArg (Stream.queue · k) (h.of_get? ht)

/-- **Changes that are accepted go to the log, and others leave no trace.** -/
theorem Logged.change {c : Stream.Change} {s' : Streams} {other : String} (h : s.Logged name cs)
    (hs : s.change other c = .ok s') :
    s'.Logged name (record name s cs (.change other c)) := by
  unfold Streams.change at hs
  unfold record
  dsimp only
  split at hs
  · cases hs
  · next keyed hkeyed =>
    obtain rfl := Except.ok.inj hs
    rw [hkeyed]
    dsimp only
    -- a stream that is new comes up with nothing queued
    have hup : (if s.has other then s else s.keyBy other (s.keyOf other)).Logged name cs := by
      split
      · exact h
      · exact h.keyBy other _
    by_cases hname : other = name
    · subst hname
      rw [if_pos rfl]
      refine hup.queue ?_ _
      split
      · next hhas => exact hhas
      · exact isSome_get?_keyBy ..
    · rw [if_neg hname]
      exact hup.congr (get?_modify_of_ne _ _ (Ne.symm hname))

/-- A stream without a queue has nothing in the log. -/
theorem logged_nil {t : Stream} (ht : s.get? name = some t) (hwait : t.isWaiting = false) :
    s.Logged name [] :=
  logged_of_get? ht (Stream.adopt_of_not_isWaiting hwait)

theorem Logged.flush (h : s.Logged name cs) (other : String) :
    (s.flush other).2.Logged name (record name s cs (.flush other)) := by
  unfold Streams.flush record
  dsimp only
  by_cases hname : other = name
  · subst hname
    rw [if_pos rfl]
    split
    · next t ht =>
        exact logged_nil (t := t.adopt (t.plan other).held)
          (by rw [get?_modify_self, ht]; rfl) (Stream.isWaiting_adopt ..)
    · next ht =>
        unfold Logged
        rw [ht]
  · rw [if_neg hname]
    split
    · exact h.congr (get?_modify_of_ne s _ (Ne.symm hname))
    · exact h

theorem keys_sentHeld (s : Streams) (skipped : List String) :
    ((s.sentPlans skipped).map fun (n, plan) => (n, plan.held)).map Prod.fst =
      (s.sentPlans skipped).map Prod.fst := by
  rw [List.map_map]
  rfl

/-- What is not skipped and not sent has nothing to send. -/
theorem isWaiting_of_unsent (hnd : (s.all.map Prod.fst).Nodup) {t : Stream}
    (ht : s.get? name = some t) {skipped : List String} (hskip : name ∉ skipped)
    (hnone : Keyed.get? ((s.sentPlans skipped).map fun (n, plan) => (n, plan.held)) name = none) :
    t.isWaiting = false := by
  refine Bool.eq_false_iff.mpr fun hwait => ?_
  have hplan := Keyed.mem_of_get? (get?_plans hnd ht hwait)
  have hsent : (name, t.plan name) ∈ s.sentPlans skipped :=
    List.mem_filter.mpr ⟨hplan, decide_eq_true hskip⟩
  have hhas := Keyed.has_of_mem_keys
    (m := (s.sentPlans skipped).map fun (n, plan) => (n, plan.held))
    (List.mem_map_of_mem (List.mem_map_of_mem hsent))
  rw [Keyed.has, hnone] at hhas
  cases hhas

theorem Logged.flushAll (h : s.Logged name cs) (hnd : (s.all.map Prod.fst).Nodup)
    (skipped : List String) :
    (s.adopt ((s.sentPlans skipped).map fun (n, plan) => (n, plan.held))).Logged name
      (record name s cs (.flushAll skipped)) := by
  have honce :
      (((s.sentPlans skipped).map fun (n, plan) => (n, plan.held)).map Prod.fst).Nodup := by
    rw [keys_sentHeld]
    exact hnd.sublist ((List.filter_sublist.map _).trans (names_plans s))
  have hget := get?_adopt (s := s) honce name
  unfold record
  dsimp only
  by_cases hskip : name ∈ skipped
  · rw [if_pos hskip]
    refine h.congr (hget.trans ?_)
    have hout :
        name ∉ ((s.sentPlans skipped).map fun (n, plan) => (n, plan.held)).map Prod.fst := by
      rw [keys_sentHeld]
      intro hin
      obtain ⟨e, he, rfl⟩ := List.mem_map.mp hin
      exact of_decide_eq_true (List.mem_filter.mp he).2 hskip
    rw [Keyed.get?_of_not_mem_keys hout]
    exact Option.map_id'
  · rw [if_neg hskip]
    cases ht : s.get? name with
    | none =>
        unfold Logged
        rw [hget, ht]
        rfl
    | some t =>
        rw [ht] at hget
        refine logged_nil hget ?_
        cases hheld :
            Keyed.get? ((s.sentPlans skipped).map fun (n, plan) => (n, plan.held)) name with
        | some keys => exact Stream.isWaiting_adopt ..
        | none => exact isWaiting_of_unsent hnd ht hskip hheld

/-- One command. -/
theorem Logged.exec {lists : Lists} (h : s.Logged name cs) (hnd : (s.all.map Prod.fst).Nodup)
    (cmd : Command) : (Streams.exec (s, lists) cmd).1.Logged name (record name s cs cmd) := by
  cases cmd with
  | keyBy other f => exact h.keyBy other f
  | change other c =>
      unfold Streams.exec
      dsimp only
      split
      · next s' hs => exact h.change hs
      · next hs =>
          have hsame : record name s cs (.change other c) = cs := by
            unfold Streams.change at hs
            unfold record
            dsimp only
            split at hs
            · next hkeyed => rw [hkeyed]
            · cases hs
          rw [hsame]
          exact h
  | flush other => exact h.flush other
  | flushAll skipped => exact h.flushAll hnd skipped

/-- **The queue of a stream is made up of the changes in its log**, after any commands. -/
theorem logged_run (cmds : List Command) (name : String) :
    (run cmds).1.Logged name (log name cmds) := by
  have hfrom (state : Streams × Lists) (cs : List Stream.KeyedChange)
      (hagree : Agrees state.1 state.2) (hlog : state.1.Logged name cs) :
      (cmds.foldl Streams.exec state).1.Logged name (logFrom name state cs cmds) := by
    induction cmds generalizing state cs with
    | nil => exact hlog
    | cons cmd cmds ih => exact ih _ _ (hagree.exec cmd) (hlog.exec hagree.names cmd)
  exact hfrom ({}, fun _ => []) [] (agrees_run []) rfl

/-! ## Flushes -/

/-- **What a flush does with an insert that may only update**, when that is the last word on its
key and nothing waits with a limit, after any commands. A client without the key is told nothing of
it. A client with the key gets the item as long as the insert asks for no position other than the
one the key has when its turn comes. Otherwise the key is taken away. -/
theorem updateOnly_run {cmds : List Command} {name : String} {t : Stream}
    (ht : (run cmds).1.get? name = some t) {i : Stream.Insert} (hup : i.updateOnly = true)
    (hlast : Stream.LastWord i (log name cmds)) (hreset : t.reset = false)
    (hfree : ∀ c ∈ log name cmds, c.Unlimited) :
    (i.key ∈ (run cmds).2 name →
      (i.position < 0 ∨ (t.listAt i.key).idxOf i.key = i.position → (t.plan name).Updates i) ∧
      (¬(i.position < 0 ∨ (t.listAt i.key).idxOf i.key = i.position) →
        (t.plan name).Removes i.key)) ∧
    (i.key ∉ (run cmds).2 name → (t.plan name).Ignores i.key) := by
  have hagree := agrees_run cmds
  have hlist : (run cmds).2 name = t.held := by
    rw [hagree.lists name, held?_of_get? ht]
    rfl
  have hnd : t.held.Nodup := hlist ▸ (hagree.lists name) ▸ hagree.nodup name
  have hqueue := (logged_run cmds name).of_get? ht
  have halone : Stream.Alone i t := hqueue ▸ hlast.alone (t.adopt t.held)
  have hlimits : ∀ j ∈ t.inserts, j.limit = none := by
    rw [← hqueue]
    exact Stream.unlimited_queueAll (List.forall_mem_nil _) hfree
  obtain ⟨hstays, hmoves, hout⟩ :=
    Stream.plan_updateOnly halone hup hnd hreset hlimits name
  rw [hlist]
  refine ⟨fun hheld => ?_, hout⟩
  -- an insert that does not move its key asks for no position, or for the one it has
  have hturn : i.key ∈ t.listAt i.key := by
    obtain ⟨_, -, hbefore, -⟩ := halone.split
    rw [Stream.listAt, Stream.mem_takeMoves_iff hbefore, List.mem_filter]
    exact ⟨hheld, decide_eq_true halone.deletes⟩
  have hiff : Stream.moves (t.listAt i.key) i = true ↔
      ¬(i.position < 0 ∨ ((t.listAt i.key).idxOf i.key : Int) = i.position) := by
    rw [Stream.moves_iff, not_or, Int.not_lt]
    exact and_iff_right hturn
  refine ⟨fun hplace => hstays hheld ?_, fun hplace => hmoves hheld (hiff.mpr hplace)⟩
  exact Bool.eq_false_iff.mpr fun h => hiff.mp h hplace

section Posts

private def postOf (id : String) : Value := .obj [("id", .str id)]

private def editOf (position : Int) : Stream.Insert :=
  { key := "posts-1", position, limit := none, updateOnly := true, item := postOf "1" }

/-- A client has two posts, and the first one is edited with a position. -/
private def editPost (position : Int) : List Command :=
  [.change "posts" (.append (postOf "1")), .change "posts" (.append (postOf "2")), .flush "posts",
    .change "posts" (.insert (postOf "1") position none true)]

private def editedPosts (position : Int) : Stream :=
  { number := 0
    keyOf := Stream.defaultKey "posts"
    inserts := [editOf position]
    held := ["posts-1", "posts-2"] }

private theorem get?_editPost (position : Int) :
    (run (editPost position)).1.get? "posts" = some (editedPosts position) := by
  rfl

private theorem log_editPost (position : Int) :
    log "posts" (editPost position) = [.inserts [editOf position]] := by
  rfl

private theorem lastWord_editPost (position : Int) :
    Stream.LastWord (editOf position) (log "posts" (editPost position)) :=
  ⟨[], [], [], [], log_editPost position, List.forall_mem_nil _, List.forall_mem_nil _⟩

private theorem unlimited_editPost (position : Int) :
    ∀ c ∈ log "posts" (editPost position), c.Unlimited := by
  rw [log_editPost]
  exact List.forall_mem_singleton.mpr (List.forall_mem_singleton.mpr rfl)

/-- In its own place the post is updated. -/
theorem editPost_updates :
    (run (editPost 0)).1.get? "posts" = some (editedPosts 0) ∧ (editOf 0).updateOnly = true ∧
      Stream.LastWord (editOf 0) (log "posts" (editPost 0)) ∧ (editedPosts 0).reset = false ∧
      (∀ c ∈ log "posts" (editPost 0), c.Unlimited) ∧
      "posts-1" ∈ (run (editPost 0)).2 "posts" ∧
      ((editedPosts 0).plan "posts").Updates (editOf 0) := by
  have hin : "posts-1" ∈ (run (editPost 0)).2 "posts" := by decide
  have hplace : ((editedPosts 0).listAt "posts-1").idxOf "posts-1" = (0 : Int) := by decide
  exact ⟨get?_editPost 0, rfl, lastWord_editPost 0, rfl, unlimited_editPost 0, hin,
    ((updateOnly_run (get?_editPost 0) rfl (lastWord_editPost 0) rfl
      (unlimited_editPost 0)).1 hin).1 (.inr hplace)⟩

/-- With a position that is not its own the post is lost: it is taken out to be moved, and is not
put in because it is not there. -/
theorem editPost_loses :
    (run (editPost 1)).1.get? "posts" = some (editedPosts 1) ∧ (editOf 1).updateOnly = true ∧
      Stream.LastWord (editOf 1) (log "posts" (editPost 1)) ∧ (editedPosts 1).reset = false ∧
      (∀ c ∈ log "posts" (editPost 1), c.Unlimited) ∧
      "posts-1" ∈ (run (editPost 1)).2 "posts" ∧
      ¬((editedPosts 1).plan "posts").Updates (editOf 1) ∧
      ((editedPosts 1).plan "posts").flush.edits = ⟨0, [], ["posts-1"], false⟩ ∧
      ((editedPosts 1).plan "posts").held = ["posts-2"] := by
  have hheld : ((editedPosts 1).plan "posts").held = ["posts-2"] := by decide
  refine ⟨get?_editPost 1, rfl, lastWord_editPost 1, rfl, unlimited_editPost 1, by decide,
    fun h => ?_, by decide, hheld⟩
  have hkey := h.held
  rw [hheld] at hkey
  exact absurd hkey (by decide)

end Posts

end Streams

end ViewSync
