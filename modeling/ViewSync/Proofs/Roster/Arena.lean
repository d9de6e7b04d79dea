import ViewSync.Proofs.Roster.Records

/-!
# The arena

How records, ids and handles go together: the record of a handle carries that handle, the table of
ids lists the records that are live and no others, and handles to spare have empty slots. Rendering
changes records in three ways only, which are the edits below; each leaves an arena.

A component that is being rendered is *away*: its slot is empty, and its handle is not to spare.
What the holes of its template do to the roster commutes with putting its record back, so that
invariants can be stated of the roster with the record in place.
-/

namespace ViewSync.Roster

/-! ## Edits -/

/-- What a hole does to a roster, when the props that it hands on are of good values. -/
inductive Edit (kinds : Kinds) (Good : Value → Prop) (r : Roster) : Roster → Prop where
  | marks (seen : KeySet Handle) (drawn : List StreamEntry) :
      Edit kinds Good r { r with seen, drawn }
  /-- A record is kept for undoing, as it is also when it is about to be rendered. -/
  | keep {h : Handle} {c : Component} : r.get? h = some c → Edit kinds Good r (r.keepState c)
  | rewrite {h : Handle} {c : Component} {props : Fields} (owner : Option StreamEntry)
      (seen : KeySet Handle) (queue : List Handle) : r.get? h = some c →
      (∀ f ∈ props, Good f.2) → (∀ k ∈ r.queue, k ∈ queue) →
      Edit kinds Good r { r.handOver kinds h c props owner with seen, queue }
  | create {id : String} {kind : KindRef} {props : Fields} {a b : Assigns}
      (owner : Option StreamEntry) (seen : KeySet Handle) (queue : List Handle) :
      r.handle? id = none → (kinds kind.key).mount Assigns.empty = .ok a →
      (kinds kind.key).update props a = (b, none) → (∀ f ∈ props, Good f.2) →
      (∀ k ∈ r.queue, k ∈ queue) → r.takeHandle.1 ∈ queue →
      Edit kinds Good r { r.create id kind b owner with seen, queue }

theorem schedule_eq (r : Roster) (h : Handle) :
    ∃ queue, r.schedule h = { r with queue } ∧ h ∈ queue ∧ ∀ k ∈ r.queue, k ∈ queue := by
  unfold schedule
  split
  · next hin => exact ⟨r.queue, rfl, hin, fun _ hk => hk⟩
  · exact ⟨r.queue ++ [h], rfl, by simp, fun k hk => List.mem_append_left _ hk⟩

theorem mem_queue_schedule {r : Roster} {h k : Handle} (hk : k ∈ (r.schedule h).queue) :
    k ∈ r.queue ∨ k = h := by
  unfold schedule at hk
  split at hk
  · exact .inl hk
  · exact (List.mem_append.mp hk).imp_right List.mem_singleton.mp

section Edit

variable {kinds : Kinds} {Good : Value → Prop}

theorem edit_refer (r : Roster) (id : String) (kind : KindRef) {props : Fields}
    (owner : Option StreamEntry) (hprops : ∀ f ∈ props, Good f.2) :
    Edit kinds Good r (r.refer kinds id kind props owner).2 := by
  have hspec := refer_spec kinds r id kind props owner
  generalize (r.refer kinds id kind props owner).1 = x at hspec
  generalize (r.refer kinds id kind props owner).2 = r' at hspec ⊢
  cases hspec with
  | refused e => exact .marks r.seen r.drawn
  | stillborn => exact .marks r.seen r.drawn
  | inside => exact .marks _ r.drawn
  | failed _ _ hc _ => exact .rewrite owner r.seen r.queue hc hprops fun _ hk => hk
  | @stale h _ _ _ hc _ =>
      obtain ⟨queue, hq, _, hmono⟩ := schedule_eq ((r.handOver kinds h _ props owner).see h) h
      rw [hq]
      exact .rewrite owner _ queue hc hprops hmono
  | unchanged _ _ hc _ => exact .rewrite owner _ r.queue hc hprops fun _ hk => hk
  | @created a b hid hmount hupdate =>
      obtain ⟨queue, hq, hin, hmono⟩ := schedule_eq ((r.create id kind b owner).see r.takeHandle.1)
        r.takeHandle.1
      rw [hq]
      refine .create owner _ queue hid hmount hupdate hprops (fun k hk => hmono k ?_) hin
      rw [see, create_rest]
      exact hk

theorem edit_follow (r : Roster) (t : Tree) : Edit kinds Good r (r.followTree t) :=
  .marks _ r.drawn

theorem edit_noteDrawn (r : Roster) (e : StreamEntry) : Edit kinds Good r (r.noteDrawn e) := by
  unfold noteDrawn
  split
  · exact .marks r.seen r.drawn
  · exact .marks r.seen _

/-- Props that are handed over between passes, when there is nothing to keep for undoing. -/
theorem edit_deliver {r : Roster} (hundo : r.undo = none) (id : String) {props : Fields}
    (hprops : ∀ f ∈ props, Good f.2) : Edit kinds Good r (r.deliver kinds id props).2 := by
  have hmarks : Edit kinds Good r r := .marks r.seen r.drawn
  unfold deliver
  cases hid : r.handle? id with
  | none => exact hmarks
  | some h =>
      dsimp only
      cases hc : r.get? h with
      | none => exact hmarks
      | some c =>
          have hkeep : r.keepState c = r := by
            unfold keepState recordUndo
            rw [hundo, Option.map_none, ← hundo]
          have hover : r.put h { c with assigns := ((kinds c.kind.key).update props c.assigns).1 } =
              r.handOver kinds h c props none := by
            rw [handOver, hkeep]
            rfl
          dsimp only
          rw [hover]
          split
          · exact .rewrite none r.seen r.queue hc hprops fun _ hk => hk
          · split
            · obtain ⟨queue, hq, -, hmono⟩ := schedule_eq (r.handOver kinds h c props none) h
              rw [hq]
              exact .rewrite none r.seen queue hc hprops hmono
            · exact .rewrite none r.seen r.queue hc hprops fun _ hk => hk

end Edit

/-! ## The arena -/

/-- The slots of handles to spare are there, and empty. -/
def SpareEmpty (r : Roster) : Prop := ∀ h ∈ r.spare, r.slots[h]? = some none

theorem SpareEmpty.not_mem {r : Roster} (hr : r.SpareEmpty) {h : Handle} {c : Component}
    (hc : r.get? h = some c) : h ∉ r.spare := by
  intro hspare
  rw [get?_of_empty (hr h hspare)] at hc
  cases hc

/-- A record may change. -/
theorem SpareEmpty.put {r : Roster} (hr : r.SpareEmpty) {h : Handle} {c : Component}
    (hc : r.get? h = some c) (c' : Component) : (r.put h c').SpareEmpty := by
  intro k hk
  have hne : h ≠ k := fun heq => hr.not_mem hc (heq ▸ hk)
  exact (List.getElem?_set_ne hne).trans (hr k hk)

/-- Records, ids and handles go together, and nothing is on its way to the client. -/
structure Arena (r : Roster) : Prop where
  /-- A record knows its handle. -/
  handle_eq : ∀ h c, r.get? h = some c → c.handle = h
  /-- The ids are in order. -/
  ids_sorted : r.ids.Sorted
  /-- The ids are those of the live records. -/
  ids_iff : ∀ id h, r.ids.get? id = some h ↔
    ∃ c, r.get? h = some c ∧ c.id = id ∧ c.retired = false
  /-- The handles to spare are in order. -/
  spare_sorted : KeySet.Sorted r.spare
  /-- They have no records. -/
  spare_empty : r.SpareEmpty
  /-- The handles that are retired are those of the retired records. -/
  retired_iff : ∀ h, h ∈ r.retired ↔ ∃ c, r.get? h = some c ∧ c.retired = true
  /-- No handle waits for the client to have been told. -/
  told : r.told = []

namespace Arena

variable {r : Roster}

/-- Marks do not matter. -/
theorem congr {r' : Roster} (hr : r.Arena) (hslots : r'.slots = r.slots) (hids : r'.ids = r.ids)
    (hspare : r'.spare = r.spare) (hretired : r'.retired = r.retired) (htold : r'.told = r.told) :
    r'.Arena := by
  have hget (h : Handle) : r'.get? h = r.get? h := by rw [get?, get?, hslots]
  refine ⟨?_, ?_, ?_, ?_, ?_, ?_, ?_⟩
  · intro h c hc
    exact hr.handle_eq h c (hget h ▸ hc)
  · rw [hids]
    exact hr.ids_sorted
  · intro id h
    rw [hids, hget]
    exact hr.ids_iff id h
  · rw [hspare]
    exact hr.spare_sorted
  · intro h hh
    rw [hslots]
    exact hr.spare_empty h (hspare ▸ hh)
  · intro h
    rw [hretired, hget]
    exact hr.retired_iff h
  · rw [htold]
    exact hr.told

theorem not_spare (hr : r.Arena) {h : Handle} {c : Component} (hc : r.get? h = some c) :
    h ∉ r.spare :=
  hr.spare_empty.not_mem hc

/-- The handles of live records are those that have not been retired. -/
theorem not_retired_iff (hr : r.Arena) {h : Handle} {c : Component} (hc : r.get? h = some c) :
    h ∉ r.retired ↔ c.retired = false := by
  have hiff : h ∈ r.retired ↔ c.retired = true := by
    rw [hr.retired_iff, hc]
    simp
  rw [hiff, Bool.not_eq_true]

/-- A record may change in all but its id, its handle, and whether it is retired. -/
theorem put {h : Handle} {c c' : Component} (hr : r.Arena) (hc : r.get? h = some c)
    (hid : c'.id = c.id) (hh : c'.handle = c.handle) (hret : c'.retired = c.retired) :
    (r.put h c').Arena := by
  have hget := get?_put (lt_of_get? hc) c'
  -- at the handle itself, the old record answers for the new one
  have hsame (k : Handle) (P : Component → Prop) (hP : P c' ↔ P c) :
      (∃ d, (r.put h c').get? k = some d ∧ P d) ↔ ∃ d, r.get? k = some d ∧ P d := by
    rw [hget]
    by_cases hk : k = h
    · subst hk
      simp [hc, hP]
    · simp [hk]
  refine ⟨?_, hr.ids_sorted, ?_, hr.spare_sorted, hr.spare_empty.put hc c', ?_, hr.told⟩
  · intro k d hd
    rw [hget] at hd
    split at hd
    · next hk =>
        obtain rfl := Option.some.inj hd
        rw [hh, hk]
        exact hr.handle_eq h c hc
    · exact hr.handle_eq k d hd
  · intro id k
    rw [hsame k (fun d => d.id = id ∧ d.retired = false) (by rw [hid, hret])]
    exact hr.ids_iff id k
  · intro k
    rw [hsame k (fun d => d.retired = true) (by rw [hret])]
    exact hr.retired_iff k

end Arena

/-! ## New records -/

/-- The slot of a new handle was empty, if there was one. -/
theorem get?_takeHandle {r : Roster} (hspare : r.SpareEmpty) : r.get? r.takeHandle.1 = none := by
  rcases takeHandle_cases r with ⟨rest, htake, _⟩ | ⟨_, hh, _⟩
  · exact get?_of_empty (hspare _ (htake ▸ List.mem_cons_self))
  · rw [hh]
    simp [get?]

/-- Taking a handle adds an empty slot at most. -/
theorem get?_takeHandle_snd (r : Roster) (k : Handle) : r.takeHandle.2.get? k = r.get? k := by
  rcases takeHandle_cases r with ⟨rest, _, hroster⟩ | ⟨_, _, hroster⟩
  · rw [hroster]
    rfl
  · rw [hroster]
    simp only [get?, List.getElem?_append]
    split
    · rfl
    · next hge =>
        have hnone : r.slots[k]? = none := List.getElem?_eq_none (Nat.le_of_not_lt hge)
        rw [hnone]
        cases hsub : ([none] : List (Option Component))[k - r.slots.length]? with
        | none => rfl
        | some o =>
            have := List.mem_of_getElem? hsub
            simp_all

theorem get?_create_of_lt {r : Roster} (hlt : r.takeHandle.1 < r.takeHandle.2.slots.length)
    (id : String) (kind : KindRef) (assigns : Assigns) (owner : Option StreamEntry) (k : Handle) :
    (r.create id kind assigns owner).get? k =
      if k = r.takeHandle.1 then some { id, handle := r.takeHandle.1, kind, assigns, owner }
      else r.get? k := by
  rw [← get?_takeHandle_snd r k, ← get?_put hlt]
  rfl

/-- A new record adds a slot at most. -/
theorem length_le_create (r : Roster) (id : String) (kind : KindRef) (assigns : Assigns)
    (owner : Option StreamEntry) :
    r.slots.length ≤ (r.create id kind assigns owner).slots.length := by
  change _ ≤ (r.takeHandle.2.slots.set r.takeHandle.1 _).length
  rw [List.length_set]
  rcases takeHandle_cases r with ⟨_, _, hroster⟩ | ⟨_, _, hroster⟩
  · exact Nat.le_of_eq (congrArg (·.slots.length) hroster).symm
  · simp [hroster]

theorem get?_create {r : Roster} (hspare : r.SpareEmpty) (id : String) (kind : KindRef)
    (assigns : Assigns) (owner : Option StreamEntry) (k : Handle) :
    (r.create id kind assigns owner).get? k =
      if k = r.takeHandle.1 then some { id, handle := r.takeHandle.1, kind, assigns, owner }
      else r.get? k := by
  refine get?_create_of_lt ?_ id kind assigns owner k
  rcases takeHandle_cases r with ⟨rest, htake, hroster⟩ | ⟨_, hh, hroster⟩
  · rw [hroster]
    have hempty := hspare _ (htake ▸ List.mem_cons_self)
    exact (List.getElem?_eq_some_iff.mp hempty).1
  · rw [hroster, hh]
    simp

/-- A new component is listed under its id. -/
theorem handle?_create (r : Roster) (id : String) (kind : KindRef) (assigns : Assigns)
    (owner : Option StreamEntry) (i : String) :
    (r.create id kind assigns owner).handle? i =
      if i = id then some r.takeHandle.1 else r.handle? i := by
  rw [create_rest]
  exact Keyed.get?_insert r.ids id i _

/-- A handle that has a slot, and is not to spare, is not given out. -/
theorem ne_takeHandle {r : Roster} {h : Handle} (hspare : h ∉ r.spare)
    (hlt : h < r.slots.length) : h ≠ r.takeHandle.1 := by
  rcases takeHandle_cases r with ⟨rest, htake, -⟩ | ⟨-, hnew, -⟩
  · intro heq
    rw [htake, heq] at hspare
    exact hspare List.mem_cons_self
  · rw [hnew]
    exact Nat.ne_of_lt hlt

/-- The handle that is taken is below all that are left to spare. -/
theorem takeHandle_not_mem_tail {r : Roster} (hsorted : KeySet.Sorted r.spare) :
    r.takeHandle.1 ∉ r.spare.tail := by
  rcases takeHandle_cases r with ⟨rest, htake, -⟩ | ⟨htake, -, -⟩
  · rw [htake] at hsorted ⊢
    exact fun hin => Nat.lt_irrefl _ ((List.pairwise_cons.mp hsorted).1 _ hin)
  · rw [htake]
    exact List.not_mem_nil

/-- A new record leaves the slots of spare handles empty. -/
theorem SpareEmpty.create {r : Roster} (hr : r.SpareEmpty) (hsorted : KeySet.Sorted r.spare)
    (id : String) (kind : KindRef) (assigns : Assigns) (owner : Option StreamEntry) :
    (r.create id kind assigns owner).SpareEmpty := by
  intro k hk
  have hspare : (r.create id kind assigns owner).spare = r.spare.tail := by rw [create_rest]
  rw [hspare] at hk
  rcases takeHandle_cases r with ⟨rest, htake, hroster⟩ | ⟨htake, _, hroster⟩
  · -- the handle that was taken is below all others
    rw [htake] at hsorted hk
    have hlt := (List.pairwise_cons.mp hsorted).1 k hk
    simp only [Roster.create, recordUndo, Roster.put, hroster]
    rw [List.getElem?_set_ne (Nat.ne_of_lt hlt)]
    exact hr k (List.mem_of_mem_tail (htake ▸ hk))
  · rw [htake] at hk
    cases hk

/-- If the handles of components have slots and are not to spare, so does that of a new one. -/
theorem bound_create {r : Roster} (hempty : r.SpareEmpty) (hsorted : KeySet.Sorted r.spare)
    (hbound : ∀ i k, r.handle? i = some k → k < r.slots.length ∧ k ∉ r.spare) (id : String)
    (kind : KindRef) (assigns : Assigns) (owner : Option StreamEntry) :
    ∀ i k, (r.create id kind assigns owner).handle? i = some k →
      k < (r.create id kind assigns owner).slots.length ∧
        k ∉ (r.create id kind assigns owner).spare := by
  intro i k hi
  have hspare : (r.create id kind assigns owner).spare = r.spare.tail := by rw [create_rest]
  rw [hspare]
  rw [handle?_create] at hi
  split at hi
  · obtain rfl := Option.some.inj hi
    have hself := (get?_create hempty id kind assigns owner r.takeHandle.1).trans (if_pos rfl)
    exact ⟨lt_of_get? hself, takeHandle_not_mem_tail hsorted⟩
  · obtain ⟨hlt, hout⟩ := hbound i k hi
    exact ⟨Nat.lt_of_lt_of_le hlt (length_le_create r id kind assigns owner),
      fun hin => hout (List.mem_of_mem_tail hin)⟩

namespace Arena

variable {r : Roster}

theorem create (hr : r.Arena) {id : String} (hid : r.handle? id = none) (kind : KindRef)
    (assigns : Assigns) (owner : Option StreamEntry) :
    (r.create id kind assigns owner).Arena := by
  have hget := get?_create hr.spare_empty id kind assigns owner
  have hnone := get?_takeHandle hr.spare_empty
  have hids : (r.create id kind assigns owner).ids = r.ids.insert id r.takeHandle.1 := by
    rw [create_rest]
  have hspare : (r.create id kind assigns owner).spare = r.spare.tail := by rw [create_rest]
  have hretired : (r.create id kind assigns owner).retired = r.retired := by rw [create_rest]
  have htold : (r.create id kind assigns owner).told = r.told := by rw [create_rest]
  refine ⟨?_, ?_, ?_, ?_, ?_, ?_, ?_⟩
  · intro k d hd
    rw [hget] at hd
    split at hd
    · next hk =>
        obtain rfl := Option.some.inj hd
        exact hk.symm
    · exact hr.handle_eq k d hd
  · rw [hids]
    exact Keyed.sorted_insert hr.ids_sorted id _
  · intro id' k
    rw [hids, Keyed.get?_insert, hget]
    by_cases hk : k = r.takeHandle.1
    · subst hk
      rw [if_pos rfl]
      by_cases hid' : id' = id
      · simp [hid']
      · have hold : r.ids.get? id' ≠ some r.takeHandle.1 := by
          intro hold
          obtain ⟨c, hc, _⟩ := (hr.ids_iff id' _).mp hold
          rw [hnone] at hc
          cases hc
        simp [hid', hold, Ne.symm hid']
    · rw [if_neg hk, ← hr.ids_iff]
      by_cases hid' : id' = id
      · subst hid'
        have hfree : r.ids.get? id' = none := hid
        simp [hfree, Ne.symm hk]
      · rw [if_neg hid']
  · rw [hspare]
    exact hr.spare_sorted.sublist (List.tail_sublist _)
  · exact hr.spare_empty.create hr.spare_sorted id kind assigns owner
  · intro k
    rw [hretired, hget]
    by_cases hk : k = r.takeHandle.1
    · subst hk
      rw [if_pos rfl, hr.retired_iff, hnone]
      simp
    · rw [if_neg hk]
      exact hr.retired_iff k
  · rw [htold]
    exact hr.told

/-- **Every edit leaves an arena.** -/
theorem edit {kinds : Kinds} {Good : Value → Prop} {r' : Roster} (hr : r.Arena)
    (he : Edit kinds Good r r') : r'.Arena := by
  cases he with
  | marks seen drawn => exact hr.congr rfl rfl rfl rfl rfl
  | keep hc => exact hr.congr rfl rfl rfl rfl rfl
  | @rewrite h c props owner seen queue hc _ _ =>
      have hkeep : (r.keepState c).Arena := hr.congr rfl rfl rfl rfl rfl
      have hput : (r.handOver kinds h c props owner).Arena := hkeep.put hc rfl rfl rfl
      exact hput.congr rfl rfl rfl rfl rfl
  | create owner seen queue hid _ _ _ _ _ =>
      exact (hr.create hid _ _ owner).congr rfl rfl rfl rfl rfl

end Arena

/-! ## Records that are away -/

/-- The slot of a handle is empty, but the handle is not to spare. -/
def Away (r : Roster) (h : Handle) : Prop := r.slots[h]? = some none ∧ h ∉ r.spare

theorem Away.get? {r : Roster} {h : Handle} (ha : Away r h) : r.get? h = none :=
  get?_of_empty ha.1

theorem Away.ne_takeHandle {r : Roster} {h : Handle} (ha : Away r h) : h ≠ r.takeHandle.1 :=
  Roster.ne_takeHandle ha.2 (List.getElem?_eq_some_iff.mp ha.1).1

theorem takeHandle_put {r : Roster} {h : Handle} (hlt : h < r.slots.length) (c : Component) :
    (r.put h c).takeHandle = (r.takeHandle.1, r.takeHandle.2.put h c) := by
  unfold takeHandle put
  cases r.spare with
  | nil => simp [List.set_append_left _ _ hlt]
  | cons k rest => rfl

theorem put_comm {r : Roster} {h k : Handle} (hne : h ≠ k) (c d : Component) :
    (r.put h c).put k d = (r.put k d).put h c := by
  simp [put, List.set_comm _ _ hne]

theorem create_put {r : Roster} {h : Handle} (ha : Away r h) (c : Component) (id : String)
    (kind : KindRef) (assigns : Assigns) (owner : Option StreamEntry) :
    (r.put h c).create id kind assigns owner = (r.create id kind assigns owner).put h c := by
  have hlt := (List.getElem?_eq_some_iff.mp ha.1).1
  unfold create
  rw [takeHandle_put hlt]
  dsimp only
  rw [put_comm ha.ne_takeHandle]
  rfl

theorem Away.put {r : Roster} {h k : Handle} (ha : Away r h) (hne : k ≠ h) (c : Component) :
    Away (r.put k c) h := by
  refine ⟨?_, ha.2⟩
  change (r.slots.set k (some c))[h]? = some none
  rw [List.getElem?_set_ne hne]
  exact ha.1

theorem Away.create {r : Roster} {h : Handle} (ha : Away r h) (id : String) (kind : KindRef)
    (assigns : Assigns) (owner : Option StreamEntry) : Away (r.create id kind assigns owner) h := by
  have htake : Away r.takeHandle.2 h := by
    rcases takeHandle_cases r with ⟨rest, hspare, hroster⟩ | ⟨hspare, _, hroster⟩
    · rw [hroster]
      exact ⟨ha.1, fun hin => ha.2 (hspare ▸ List.mem_cons_of_mem _ hin)⟩
    · rw [hroster]
      refine ⟨?_, ha.2⟩
      change (r.slots ++ [none])[h]? = some none
      rw [List.getElem?_append_left (List.getElem?_eq_some_iff.mp ha.1).1]
      exact ha.1
  exact htake.put (Ne.symm ha.ne_takeHandle) _

/-- **Edits go on behind a record that is away.** They are the same edits with the record in its
place, and leave it away. -/
theorem Edit.behind {kinds : Kinds} {Good : Value → Prop} {r r' : Roster} {h : Handle}
    (he : Edit kinds Good r r') (ha : Away r h) (c : Component) :
    Edit kinds Good (r.put h c) (r'.put h c) ∧ Away r' h := by
  have hlt := (List.getElem?_eq_some_iff.mp ha.1).1
  have hget {k : Handle} {d : Component} (hd : r.get? k = some d) :
      k ≠ h ∧ (r.put h c).get? k = some d := by
    have hne : k ≠ h := by
      rintro rfl
      rw [ha.get?] at hd
      cases hd
    refine ⟨hne, ?_⟩
    rw [get?_put hlt, if_neg hne, hd]
  cases he with
  | marks seen drawn => exact ⟨.marks seen drawn, ha⟩
  | keep hd => exact ⟨.keep (hget hd).2, ha⟩
  | @rewrite k d props owner seen queue hd hprops hmono =>
      obtain ⟨hne, hd'⟩ := hget hd
      have hcomm : (r.put h c).handOver kinds k d props owner =
          (r.handOver kinds k d props owner).put h c :=
        put_comm (r := r.keepState d) (Ne.symm hne) _ _
      have hedit : Edit kinds Good (r.put h c) _ := .rewrite owner seen queue hd' hprops hmono
      rw [hcomm] at hedit
      exact ⟨hedit, Away.put (r := r.keepState d) ha hne _⟩
  | @create id kind props a b owner seen queue hid hmount hupdate hprops hmono hin =>
      have hin' : (r.put h c).takeHandle.1 ∈ queue := by
        rw [takeHandle_put hlt]
        exact hin
      have hedit : Edit kinds Good (r.put h c) _ :=
        .create owner seen queue hid hmount hupdate hprops hmono hin'
      rw [create_put ha] at hedit
      exact ⟨hedit, ha.create id kind b owner⟩

end ViewSync.Roster
