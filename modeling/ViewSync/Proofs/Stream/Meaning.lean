import ViewSync.Proofs.Stream.Queue
import Mathlib.Data.Finset.Basic

/-!
# What a flush means

Changes can be read one at a time: an insert adds its key, a delete takes its key out, and a reset
leaves nothing but what it brings. The queue does not keep them one at a time; it forgets what later
changes overrule, and a flush puts what is left into another order. Without limits, and without
inserts that may only update, a flush comes to the same: the client has the keys of the sequential
reading, each insert brings the last item of its key, and the keys that nothing was said of stay,
one behind the other as before.
-/

namespace ViewSync

namespace Stream

variable {s : Stream} {i : Insert} {is : List Insert} {c : KeyedChange} {cs : List KeyedChange}
variable {held : List String} {key : String}

/-! ## The sequential reading -/

/-- The keys of a list once a change was made to it at once. -/
def KeyedChange.applyTo (keys : Finset String) : KeyedChange → Finset String
  | .inserts is => keys ∪ (is.map (·.key)).toFinset
  | .delete key => keys.erase key
  | .reset is => (is.map (·.key)).toFinset

/-- The keys of a list once changes were made to it one at a time. -/
def applyAll (keys : Finset String) (cs : List KeyedChange) : Finset String :=
  cs.foldl KeyedChange.applyTo keys

/-- The last insert of a key among those that changes bring. -/
def lastInsert (key : String) (cs : List KeyedChange) : Option Insert :=
  (ofKey key (cs.flatMap KeyedChange.brought)).getLast?

/-- An insert is neither limited nor may it only update. -/
def Insert.Plain (i : Insert) : Prop := i.limit = none ∧ i.updateOnly = false

instance (i : Insert) : Decidable i.Plain :=
  inferInstanceAs (Decidable (i.limit = none ∧ i.updateOnly = false))

instance (key : String) : (c : KeyedChange) → Decidable (c.Names key)
  | .inserts is => inferInstanceAs (Decidable (∃ i ∈ is, i.key = key))
  | .delete k => inferInstanceAs (Decidable (k = key))
  | .reset _ => inferInstanceAs (Decidable True)

/-- Changes say nothing of a key. A reset says something of every key. -/
def unnamed (cs : List KeyedChange) (key : String) : Bool := ∀ c ∈ cs, ¬c.Names key

/-! ## What a queue comes to -/

/-- The keys that a client is to have when all that waits has gone out. -/
def due (s : Stream) : Finset String :=
  (s.afterReset.filter (· ∉ s.deletes)).toFinset ∪ (s.inserts.map (·.key)).toFinset

theorem mem_due : key ∈ s.due ↔
    (key ∈ s.afterReset ∧ key ∉ s.deletes) ∨ ∃ i ∈ s.inserts, i.key = key := by
  simp [due]

theorem due_queueInsert (s : Stream) (i : Insert) : (s.queueInsert i).due = insert i.key s.due := by
  ext key
  have hreset : (s.queueInsert i).afterReset = s.afterReset := rfl
  rw [Finset.mem_insert, mem_due, mem_due, hreset]
  simp only [queueInsert, List.mem_filter, List.mem_append, List.mem_singleton]
  grind

theorem due_queueDelete (s : Stream) (key : String) :
    (s.queueDelete key).due = s.due.erase key := by
  ext other
  have hreset : (s.queueDelete key).afterReset = s.afterReset := rfl
  rw [Finset.mem_erase, mem_due, mem_due, hreset]
  simp only [queueDelete, afterReset]
  grind

/-- **Queueing a change is making it to the keys that are due.** -/
theorem due_queue (s : Stream) (c : KeyedChange) : (s.queue c).due = c.applyTo s.due := by
  cases c with
  | inserts is =>
      change (is.foldl queueInsert s).due = s.due ∪ (is.map (·.key)).toFinset
      induction is generalizing s with
      | nil => simp
      | cons i is ih =>
          rw [List.foldl_cons, ih, due_queueInsert]
          ext key
          simp only [Finset.mem_union, Finset.mem_insert, List.map_cons, List.toFinset_cons]
          grind
  | delete key => exact due_queueDelete s key
  | reset is =>
      ext key
      have hempty : (s.queueReset is).afterReset = [] := by
        unfold afterReset queueReset
        cases s.reset <;> cases s.held <;> rfl
      change key ∈ (s.queueReset is).due ↔ key ∈ (is.map (·.key)).toFinset
      rw [mem_due, hempty]
      simp [queueReset]

theorem due_queueAll (s : Stream) (cs : List KeyedChange) :
    (s.queueAll cs).due = applyAll s.due cs := by
  induction cs generalizing s with
  | nil => rfl
  | cons c cs ih => exact (ih (s.queue c)).trans (congrArg (applyAll · cs) (due_queue s c))

theorem due_adopt (s : Stream) (held : List String) : (s.adopt held).due = held.toFinset := by
  ext key
  rw [mem_due]
  simp [adopt, afterReset]

/-! ## Where inserts land -/

theorem land_of_mem (hi : i.Plain) (hin : i.key ∈ held) : (land held i).1 = held := by
  obtain ⟨current, hcurrent⟩ := Option.isSome_iff_exists.mp (List.isSome_idxOf?.mpr hin)
  simp [land, hcurrent, hi.1]

theorem land_of_not_mem (hi : i.Plain) (hout : i.key ∉ held) :
    (land held i).1 = insertAt held i.key i.position := by
  have hnone : held.idxOf? i.key = none := by
    rw [← Option.not_isSome_iff_eq_none, List.isSome_idxOf?]
    exact hout
  simp [land, hnone, hi.1, hi.2]

theorem insertAt_eq (held : List String) (key : String) (position : Int) :
    ∃ before after, held = before ++ after ∧
      insertAt held key position = before ++ key :: after := by
  rw [← putIn_eq_insertAt]
  exact ⟨_, _, (List.take_append_drop _ held).symm, rfl⟩

theorem mem_land_iff (hi : i.Plain) : key ∈ (land held i).1 ↔ key ∈ held ∨ i.key = key := by
  by_cases hin : i.key ∈ held
  · rw [land_of_mem hi hin]
    exact ⟨.inl, fun h => h.elim id fun heq => heq ▸ hin⟩
  · rw [land_of_not_mem hi hin]
    obtain ⟨before, after, rfl, heq⟩ := insertAt_eq held i.key i.position
    rw [heq, List.mem_append, List.mem_cons, List.mem_append]
    grind

theorem mem_landAll_iff (his : ∀ i ∈ is, i.Plain) :
    key ∈ (landAll held is).1 ↔ key ∈ held ∨ ∃ i ∈ is, i.key = key := by
  induction is generalizing held with
  | nil => simp [landAll]
  | cons i is ih =>
      obtain ⟨hi, his⟩ := List.forall_mem_cons.mp his
      change key ∈ (landAll (land held i).1 is).1 ↔ _
      rw [ih his, mem_land_iff hi, or_assoc, List.exists_mem_cons_iff]

/-- Keys of which no insert says anything stay in their order. -/
theorem filter_landAll {p : String → Bool} (his : ∀ i ∈ is, i.Plain)
    (hp : ∀ i ∈ is, p i.key = false) : (landAll held is).1.filter p = held.filter p := by
  induction is generalizing held with
  | nil => rfl
  | cons i is ih =>
      obtain ⟨hi, his⟩ := List.forall_mem_cons.mp his
      obtain ⟨hkey, hp⟩ := List.forall_mem_cons.mp hp
      change (landAll (land held i).1 is).1.filter p = _
      rw [ih his hp]
      by_cases hin : i.key ∈ held
      · rw [land_of_mem hi hin]
      · rw [land_of_not_mem hi hin]
        obtain ⟨before, after, rfl, heq⟩ := insertAt_eq held i.key i.position
        rw [heq, List.filter_append, List.filter_cons_of_neg (by simp [hkey]), List.filter_append]

/-! ## Plans -/

theorem Proper.mem_leaving_iff (h : s.Proper) : key ∈ s.leaving.1 ↔
    (key ∈ s.afterReset ∧ key ∉ s.deletes) ∧ key ∉ s.leaving.2 := by
  rw [← h.filter_deletes, List.mem_filter]
  simp [and_assoc]

/-- Only keys that wait to be inserted move. -/
theorem exists_of_mem_leaving (hkey : key ∈ s.leaving.2) : ∃ i ∈ s.inserts, i.key = key := by
  by_contra hnone
  exact not_mem_moved (fun i hi heq => hnone ⟨i, hi, heq⟩) _ hkey

/-- **A plain flush leaves the client with the keys that were due.** -/
theorem Proper.toFinset_held (h : s.Proper) (hplain : ∀ i ∈ s.inserts, i.Plain) (name : String) :
    (s.plan name).held.toFinset = s.due := by
  ext key
  rw [h.plan_eq name, List.mem_toFinset, mem_due, mem_landAll_iff hplain, h.mem_leaving_iff]
  constructor
  · exact Or.imp_left And.left
  · rintro (hleft | hinsert)
    · by_cases hmoves : key ∈ s.leaving.2
      · exact .inr (exists_of_mem_leaving hmoves)
      · exact .inl ⟨hleft, hmoves⟩
    · exact .inr hinsert

/-- **Keys of which nothing waits stay in their order.** -/
theorem Proper.filter_held (h : s.Proper) (hplain : ∀ i ∈ s.inserts, i.Plain) (name : String)
    {p : String → Bool} (hinserts : ∀ i ∈ s.inserts, p i.key = false)
    (hdeletes : ∀ key ∈ s.deletes, p key = false) :
    (s.plan name).held.filter p = s.afterReset.filter p := by
  rw [h.plan_eq name]
  refine (filter_landAll hplain hinserts).trans ?_
  rw [← h.filter_deletes, List.filter_filter]
  refine List.filter_congr fun key _ => ?_
  -- what is deleted or moves has something waiting
  by_cases hin : key ∈ s.deletes ++ s.leaving.2
  · have hfalse : p key = false := by
      rcases List.mem_append.mp hin with hin | hin
      · exact hdeletes key hin
      · obtain ⟨i, hi, rfl⟩ := exists_of_mem_leaving hin
        exact hinserts i hi
    rw [hfalse, Bool.false_and]
  · rw [decide_eq_true hin, Bool.and_true]

/-- The item of what is sent is that of an insert of the same key that was waiting. -/
theorem Proper.exists_of_sent (h : s.Proper) (name : String)
    (hi : i ∈ (s.plan name).flush.inserts) :
    ∃ j ∈ s.inserts, j.key = i.key ∧ j.item = i.item := by
  rw [h.plan_eq name] at hi
  obtain ⟨before, after, hsplit⟩ := List.append_of_mem hi
  obtain ⟨⟨j, hj, hsame⟩, -⟩ := landAll_sent s.inserts h.nodup_leaving hsplit
  exact ⟨j, hj, by rw [hsame], by rw [hsame]⟩

/-! ## What was said last -/

/-- All that waits was said by changes, and each insert is what they say last of its key. -/
structure Said (s : Stream) (cs : List KeyedChange) : Prop where
  /-- An insert is what the changes say last of its key. -/
  inserts : ∀ i ∈ s.inserts, lastInsert i.key cs = some i
  /-- A key that waits to be deleted is named by a change. -/
  deletes : ∀ key ∈ s.deletes, unnamed cs key = false
  /-- A change has reset the list, if it is to be reset. -/
  reset : s.reset = true → ∀ key, unnamed cs key = false

theorem lastInsert_concat (key : String) (cs : List KeyedChange) (c : KeyedChange) :
    lastInsert key (cs ++ [c]) = (ofKey key c.brought).getLast?.or (lastInsert key cs) := by
  simp only [lastInsert, List.flatMap_append, List.flatMap_singleton, ofKey_append,
    List.getLast?_append]

theorem unnamed_concat (cs : List KeyedChange) (c : KeyedChange) (key : String) :
    unnamed (cs ++ [c]) key = (unnamed cs key && !decide (c.Names key)) := by
  rw [Bool.eq_iff_iff]
  simp [unnamed, or_imp, forall_and]

theorem unnamed_concat_eq_false (h : unnamed cs key = false ∨ c.Names key) :
    unnamed (cs ++ [c]) key = false := by
  rw [unnamed_concat]
  rcases h with h | h
  · rw [h, Bool.false_and]
  · rw [decide_eq_true h, Bool.not_true, Bool.and_false]

/-- What is waiting after inserts was inserted, or it was waiting before and is of another key. -/
theorem mem_foldl_queueInsert (hi : i ∈ (is.foldl queueInsert s).inserts) :
    i ∈ is ∨ i ∈ s.inserts ∧ ∀ j ∈ is, j.key ≠ i.key := by
  induction is generalizing s with
  | nil => exact .inr ⟨hi, List.forall_mem_nil _⟩
  | cons j is ih =>
      rcases ih hi with hin | ⟨hin, hothers⟩
      · exact .inl (List.mem_cons_of_mem _ hin)
      · rcases List.mem_append.mp hin with hin | hin
        · obtain ⟨hin, hne⟩ := List.mem_filter.mp hin
          have hne : i.key ≠ j.key := of_decide_eq_true hne
          exact .inr ⟨hin, List.forall_mem_cons.mpr ⟨Ne.symm hne, hothers⟩⟩
        · exact .inl (List.mem_singleton.mp hin ▸ List.mem_cons_self)

theorem deletes_foldl_queueInsert (hkey : key ∈ (is.foldl queueInsert s).deletes) :
    key ∈ s.deletes :=
  List.foldlRecOn (motive := fun s' : Stream => key ∈ s'.deletes → key ∈ s.deletes) is _ id
    (fun _ h _ _ hkey => h (List.mem_of_mem_filter hkey)) hkey

namespace Said

/-- An insert that waits after a change came with it, or was waiting before and nothing in the
change is of its key. -/
theorem inserts_concat (h : s.Said cs) (hc : (c.brought.map (·.key)).Nodup)
    (hi : i ∈ c.brought ∨ i ∈ s.inserts ∧ ∀ j ∈ c.brought, j.key ≠ i.key) :
    lastInsert i.key (cs ++ [c]) = some i := by
  rw [lastInsert_concat]
  rcases hi with hi | ⟨hi, hothers⟩
  · rw [ofKey_of_mem hc hi]
    rfl
  · rw [ofKey_eq_nil.mpr hothers, h.inserts i hi]
    rfl

theorem queue (h : s.Said cs) (hc : (c.brought.map (·.key)).Nodup) :
    (s.queue c).Said (cs ++ [c]) := by
  cases c with
  | inserts is =>
      have hreset : (is.foldl queueInsert s).reset = s.reset :=
        List.foldlRecOn (motive := fun s' : Stream => s'.reset = s.reset) is _ rfl
          fun _ h _ _ => h
      refine ⟨fun i hi => h.inserts_concat hc (mem_foldl_queueInsert hi), fun key hkey => ?_,
        fun htrue key => ?_⟩
      · exact unnamed_concat_eq_false (.inl (h.deletes key (deletes_foldl_queueInsert hkey)))
      · exact unnamed_concat_eq_false (.inl (h.reset (hreset.symm.trans htrue) key))
  | delete k =>
      refine ⟨fun i hi => ?_, fun key hkey => ?_, fun htrue key => ?_⟩
      · exact h.inserts_concat hc
          (.inr ⟨List.mem_of_mem_filter hi, List.forall_mem_nil _⟩)
      · unfold Stream.queue queueDelete at hkey
        dsimp only at hkey
        split at hkey
        · rcases List.mem_append.mp hkey with hkey | hkey
          · exact unnamed_concat_eq_false (.inl (h.deletes key hkey))
          · exact unnamed_concat_eq_false (.inr (List.mem_singleton.mp hkey).symm)
        · exact unnamed_concat_eq_false (.inl (h.deletes key hkey))
      · exact unnamed_concat_eq_false (.inl (h.reset htrue key))
  | reset is =>
      exact ⟨fun i hi => h.inserts_concat hc (.inl hi), List.forall_mem_nil _,
        fun _ key => unnamed_concat_eq_false (.inr trivial)⟩

end Said

/-- **What waits in a queue was said by the changes that make it up.** -/
theorem said_queueAll (s : Stream) (held : List String)
    (hcs : ∀ c ∈ cs, (c.brought.map (·.key)).Nodup) : ((s.adopt held).queueAll cs).Said cs := by
  induction cs using List.reverseRecOn with
  | nil =>
      exact ⟨List.forall_mem_nil _, List.forall_mem_nil _, fun h => absurd h Bool.false_ne_true⟩
  | append_singleton cs c ih =>
      obtain ⟨hcs, hc⟩ := List.forall_mem_append.mp hcs
      rw [queueAll, List.foldl_append]
      exact (ih hcs).queue (hc c (List.mem_singleton_self c))

theorem mem_of_lastInsert (h : lastInsert key cs = some i) :
    i.key = key ∧ ∃ c ∈ cs, i ∈ c.brought := by
  obtain ⟨hmem, hkey⟩ := List.mem_filter.mp (List.mem_of_getLast? h)
  exact ⟨of_decide_eq_true hkey, List.mem_flatMap.mp hmem⟩

theorem names_of_brought (hi : i ∈ c.brought) : c.Names i.key := by
  cases c with
  | inserts is => exact ⟨i, hi, rfl⟩
  | delete key => cases hi
  | reset is => trivial

/-! ## A flush and its changes -/

/-- **What a plain flush means**, by the changes that make up the queue. -/
theorem plan_said (hnd : held.Nodup) (hcs : ∀ c ∈ cs, (c.brought.map (·.key)).Nodup)
    (hplain : ∀ c ∈ cs, ∀ i ∈ c.brought, i.Plain) (s : Stream) (name : String) :
    let p := ((s.adopt held).queueAll cs).plan name
    p.held.toFinset = applyAll held.toFinset cs ∧
      (∀ i ∈ p.flush.inserts, (lastInsert i.key cs).map Insert.item = some i.item) ∧
      p.held.filter (unnamed cs) = held.filter (unnamed cs) := by
  have hsaid := said_queueAll s held hcs
  have hproper := (Proper.adopt s hnd).queueAll hcs
  have hdue := (due_queueAll (s.adopt held) cs).trans (congrArg (applyAll · cs) (due_adopt s held))
  have hheld : ((s.adopt held).queueAll cs).held = held :=
    List.foldlRecOn (motive := fun t : Stream => t.held = held) cs _ rfl
      fun t h c _ => (Streams.held_queue t c).trans h
  generalize (s.adopt held).queueAll cs = t at hsaid hproper hdue hheld
  have hwaiting : ∀ i ∈ t.inserts, i.Plain := fun i hi => by
    obtain ⟨-, c, hc, hi⟩ := mem_of_lastInsert (hsaid.inserts i hi)
    exact hplain c hc i hi
  refine ⟨(hproper.toFinset_held hwaiting name).trans hdue, fun i hi => ?_, ?_⟩
  · obtain ⟨j, hj, hkey, hitem⟩ := hproper.exists_of_sent name hi
    rw [← hkey, hsaid.inserts j hj, Option.map_some, hitem]
  · have hinserts (i : Insert) (hi : i ∈ t.inserts) : unnamed cs i.key = false := by
      obtain ⟨-, c, hc, hi⟩ := mem_of_lastInsert (hsaid.inserts i hi)
      exact decide_eq_false fun hnone => hnone c hc (names_of_brought hi)
    rw [hproper.filter_held hwaiting name hinserts hsaid.deletes, afterReset, hheld]
    split
    · next hreset =>
        rw [funext (hsaid.reset hreset)]
        simp
    · rfl

end Stream

namespace Streams

/-- The keys of a stream that the client holds, in order, and none if there is no such stream. -/
def heldOf (s : Streams) (name : String) : List String := (s.held? name).getD []

/-- What a flush has for the client makes its list to what is held after the flush. -/
theorem apply_flush {s : Streams} {lists : Lists} (h : Agrees s lists) (name : String) :
    (s.flush name).1.edits.apply (lists name) = (s.flush name).2.heldOf name := by
  have hlists := (h.exec (.flush name)).lists name
  change Function.update lists name _ name = _ at hlists
  rwa [Function.update_self] at hlists

/-- **A flush means what its changes mean one at a time**, after any acts, as long as nothing is
queued with a limit or may only update. The keys that are held then are those of the sequential
reading; what is sent for a key brings the last item of it; and the keys of which no change says
anything are all still there, in the same order. The list of the client is what is held, before and
after. -/
theorem flush_means {acts : List Act} {name : String}
    (hplain : ∀ c ∈ queued name acts, ∀ i ∈ c.brought, i.Plain) :
    let held := (life acts).1.heldOf name
    let flushed := (life acts).1.flush name
    let held' := flushed.2.heldOf name
    held'.toFinset = Stream.applyAll held.toFinset (queued name acts) ∧
      (∀ i ∈ flushed.1.inserts,
        (Stream.lastInsert i.key (queued name acts)).map Stream.Insert.item = some i.item) ∧
      held'.filter (Stream.unnamed (queued name acts)) =
        held.filter (Stream.unnamed (queued name acts)) ∧
      (life acts).2 name = held ∧ flushed.1.edits.apply ((life acts).2 name) = held' := by
  obtain ⟨hlog, hcs⟩ := logged_life acts name
  have hagree := agrees_life acts
  have hclient : (life acts).2 name = (life acts).1.heldOf name := hagree.lists name
  dsimp only
  refine and_assoc.mp (and_assoc.mp ⟨and_assoc.mpr ?_, hclient, apply_flush hagree name⟩)
  cases ht : (life acts).1.get? name with
  | none =>
      have hnone : queued name acts = [] := by simpa only [Logged, ht] using hlog
      have hflush : (life acts).1.flush name = ({ name }, (life acts).1) := by
        simp only [Streams.flush, ht]
      rw [hnone, hflush]
      exact ⟨rfl, List.forall_mem_nil _, rfl⟩
  | some t =>
      have hflush : (life acts).1.flush name = ((t.plan name).flush,
          (life acts).1.modify name (·.adopt (t.plan name).held)) := by
        simp only [Streams.flush, ht]
      have hheld : (life acts).1.heldOf name = t.held := by
        rw [heldOf, held?_of_get? ht, Option.getD_some]
      have hheld' : ((life acts).1.modify name (·.adopt (t.plan name).held)).heldOf name =
          (t.plan name).held := by
        rw [heldOf, held?, get?_modify_self, ht]
        rfl
      rw [hflush, hheld, hheld']
      have hmeans := Stream.plan_said (hagree.nodup_held ht) hcs hplain t name
      rwa [hlog.of_get? ht] at hmeans

section Notes

private def note (id text : String) : Value := .obj [("id", .str id), ("text", .str text)]

private def noteAt (id text : String) (position : Int) : Stream.Change :=
  .insert (note id text) position none false

/-- A client has four notes. The first one is deleted and added again, a fifth one comes and goes,
the third one is put in front twice, the second one is deleted, and a sixth one is added. -/
private def jotting : List Act :=
  [.command (.change "notes"
      (.insertAll [note "1" "", note "2" "", note "3" "", note "4" ""] (-1) none)),
    .command (.flush "notes"),
    .command (.change "notes" (.deleteKey "notes-1")),
    .command (.change "notes" (noteAt "1" "again" (-1))),
    .command (.change "notes" (noteAt "5" "" 0)),
    .command (.change "notes" (.deleteKey "notes-5")),
    .command (.change "notes" (noteAt "3" "draft" 0)),
    .command (.change "notes" (noteAt "3" "final" 0)),
    .command (.change "notes" (.deleteKey "notes-2")),
    .command (.change "notes" (noteAt "6" "" (-1)))]

/-- The third note moves and the fourth one, of which nothing was said, stays. -/
theorem jotting_means :
    let queue := queued "notes" jotting
    let flushed := (life jotting).1.flush "notes"
    (∀ c ∈ queue, ∀ i ∈ c.brought, i.Plain) ∧
    flushed.1.edits =
      ⟨0, [⟨"notes-1", 0, none, false⟩, ⟨"notes-3", 0, none, false⟩, ⟨"notes-6", -1, none, false⟩],
        ["notes-2", "notes-3"], false⟩ ∧
    flushed.2.heldOf "notes" = ["notes-3", "notes-1", "notes-4", "notes-6"] ∧
    ["notes-3", "notes-1", "notes-4", "notes-6"].toFinset =
      Stream.applyAll ["notes-1", "notes-2", "notes-3", "notes-4"].toFinset queue ∧
    (∀ i ∈ flushed.1.inserts,
      (Stream.lastInsert i.key queue).map Stream.Insert.item = some i.item) ∧
    ["notes-1", "notes-2", "notes-3", "notes-4"].filter (Stream.unnamed queue) = ["notes-4"] := by
  have hplain : ∀ c ∈ queued "notes" jotting, ∀ i ∈ c.brought, i.Plain := by decide
  obtain ⟨hkeys, hitems, hstays, -⟩ := flush_means hplain
  exact ⟨hplain, by decide, by decide, hkeys, hitems, hstays.symm⟩

end Notes

end Streams

end ViewSync
