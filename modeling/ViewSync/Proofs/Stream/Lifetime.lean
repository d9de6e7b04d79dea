import ViewSync.Proofs.Stream.Keys
import ViewSync.Proofs.Stream.UpdateOnly
import Mathlib.Data.List.Induction

/-!
# The lifetime of a store

A view that is closed drops its streams, and so does its client with the lists that it has; both may
then be used again. What holds of streams after any commands holds over the whole lifetime of a
store, however often its streams were dropped. Only numbers outlast the streams: they go on from
where they were, so that a number never stands for another stream later on.
-/

namespace ViewSync.Streams

/-- What may happen to a store, and to the client that it has. -/
inductive Act where
  | command (cmd : Command)
  /-- Every stream is dropped, and so is every list of the client. -/
  | clear

/-- The next state of both sides. -/
def act : Streams × Lists → Act → Streams × Lists
  | state, .command cmd => exec state cmd
  | (s, _), .clear => (s.clear, fun _ => [])

/-- Both sides after some acts. They start out with nothing. -/
def life (acts : List Act) : Streams × Lists := acts.foldl act ({}, fun _ => [])

/-- The changes of a stream that were accepted since its queue last went out or was dropped, after
one more act. -/
def recordAct (name : String) (s : Streams) (log : List Stream.KeyedChange) :
    Act → List Stream.KeyedChange
  | .command cmd => record name s log cmd
  | .clear => []

/-- What becomes of a log as acts are carried out. -/
def queuedFrom (name : String) : Streams × Lists → List Stream.KeyedChange → List Act →
    List Stream.KeyedChange
  | _, cs, [] => cs
  | state, cs, a :: acts => queuedFrom name (act state a) (recordAct name state.1 cs a) acts

/-- The changes of a stream that were accepted since its queue last went out or was dropped. -/
def queued (name : String) (acts : List Act) : List Stream.KeyedChange :=
  queuedFrom name ({}, fun _ => []) [] acts

theorem life_append (acts more : List Act) : life (acts ++ more) = more.foldl act (life acts) :=
  List.foldl_append

/-- What holds at the start and is kept by every act holds over a lifetime, of both sides and of
what a stream has queued. -/
theorem life_induction (name : String) {P : Streams × Lists → List Stream.KeyedChange → Prop}
    (hstart : P ({}, fun _ => []) [])
    (hact : ∀ state cs a, P state cs → P (act state a) (recordAct name state.1 cs a))
    (acts : List Act) : P (life acts) (queued name acts) := by
  have hfrom (state : Streams × Lists) (cs : List Stream.KeyedChange) (h : P state cs) :
      P (acts.foldl act state) (queuedFrom name state cs acts) := by
    induction acts generalizing state cs with
    | nil => exact h
    | cons a acts ih => exact ih _ _ (hact state cs a h)
  exact hfrom _ _ hstart

/-! ## Both sides in step -/

theorem agrees_act {state : Streams × Lists} (h : Agrees state.1 state.2) (a : Act) :
    Agrees (act state a).1 (act state a).2 := by
  cases a with
  | command cmd => exact h.exec cmd
  | clear => exact ⟨List.nodup_nil, fun _ => List.nodup_nil, fun _ => rfl⟩

theorem agrees_life (acts : List Act) : Agrees (life acts).1 (life acts).2 :=
  life_induction "" (P := fun state _ => Agrees state.1 state.2) (agrees_run [])
    (fun _ _ a h => agrees_act h a) acts

/-- The client's list of a stream is what the stream takes it to hold. -/
theorem Agrees.list_eq {s : Streams} {lists : Lists} (h : Agrees s lists) {name : String}
    {t : Stream} (ht : s.get? name = some t) : lists name = t.held := by
  rw [h.lists name, held?_of_get? ht, Option.getD_some]

theorem Agrees.nodup_held {s : Streams} {lists : Lists} (h : Agrees s lists) {name : String}
    {t : Stream} (ht : s.get? name = some t) : t.held.Nodup := by
  have hnd := h.nodup name
  rwa [held?_of_get? ht] at hnd

/-! ## What is queued -/

/-- **The queue of a stream is made up of the changes in its log**, and none of them brings two
inserts of one key. -/
theorem logged_life (acts : List Act) (name : String) :
    (life acts).1.Logged name (queued name acts) ∧
      ∀ c ∈ queued name acts, (c.brought.map (·.key)).Nodup := by
  refine (life_induction name (P := fun state cs =>
    Agrees state.1 state.2 ∧ state.1.Logged name cs ∧ ∀ c ∈ cs, (c.brought.map (·.key)).Nodup)
    ⟨agrees_run [], rfl, List.forall_mem_nil _⟩ ?_ acts).2
  rintro state cs a ⟨hagree, hlog, hcs⟩
  refine ⟨agrees_act hagree a, ?_⟩
  cases a with
  | clear => exact ⟨rfl, List.forall_mem_nil _⟩
  | command cmd =>
      refine ⟨hlog.exec hagree.names cmd, ?_⟩
      change ∀ c ∈ record name state.1 cs cmd, _
      unfold record
      split
      · exact hcs
      · split
        · next keyed hkeyed =>
            split
            · exact List.forall_mem_append.mpr
                ⟨hcs, List.forall_mem_singleton.mpr (Stream.nodup_brought hkeyed)⟩
            · exact hcs
        · exact hcs
      · split
        · exact List.forall_mem_nil _
        · exact hcs
      · split
        · exact hcs
        · exact List.forall_mem_nil _

/-! ## Numbers -/

/-- A number that a store has given out stands for the same stream later on, if for any. -/
structure Onward (s s' : Streams) : Prop where
  /-- The numbers given out are not given out again. -/
  next : s.nextNumber ≤ s'.nextNumber
  /-- A stream has a new number, or has had this one all along. -/
  kept : ∀ name t', s'.get? name = some t' →
    s.nextNumber ≤ t'.number ∨ ∃ t, s.get? name = some t ∧ t'.number = t.number

namespace Onward

variable {s s' s'' : Streams}

theorem refl (s : Streams) : Onward s s := ⟨Nat.le_refl _, fun _ t ht => .inr ⟨t, ht, rfl⟩⟩

theorem trans (h : Onward s s') (h' : Onward s' s'') : Onward s s'' where
  next := Nat.le_trans h.next h'.next
  kept name t'' ht'' := by
    rcases h'.kept name t'' ht'' with hnew | ⟨t', ht', heq⟩
    · exact .inl (Nat.le_trans h.next hnew)
    · rw [heq]
      exact h.kept name t' ht'

theorem modify (s : Streams) (name : String) {f : Stream → Stream}
    (hf : ∀ t, (f t).number = t.number) : Onward s (s.modify name f) where
  next := Nat.le_refl _
  kept other t' ht' := by
    right
    by_cases hne : other = name
    · subst hne
      rw [get?_modify_self] at ht'
      obtain ⟨t, ht, rfl⟩ := Option.map_eq_some_iff.mp ht'
      exact ⟨t, ht, hf t⟩
    · rw [get?_modify_of_ne s f hne] at ht'
      exact ⟨t', ht', rfl⟩

theorem keyBy (s : Streams) (name : String) (keyOf : Value → Value) :
    Onward s (s.keyBy name keyOf) := by
  unfold Streams.keyBy
  split
  · exact modify s name fun _ => rfl
  · refine ⟨Nat.le_succ _, fun other t' ht' => ?_⟩
    rcases List.mem_append.mp (Keyed.mem_of_get? ht') with hmem | hmem
    · -- a stream that was there comes first among those of its name
      have hhas := Keyed.has_of_mem_keys (List.mem_map_of_mem (f := Prod.fst) hmem)
      obtain ⟨t, ht⟩ := Option.isSome_iff_exists.mp hhas
      rw [get?, Keyed.get?_append, ht, Option.some_or] at ht'
      exact .inr ⟨t, ht, congrArg Stream.number (Option.some.inj ht').symm⟩
    · obtain ⟨-, rfl⟩ := Prod.mk.inj (List.mem_singleton.mp hmem)
      exact .inl (Nat.le_refl _)

theorem clear (s : Streams) : Onward s s.clear := ⟨Nat.le_refl _, fun _ _ h => nomatch h⟩

end Onward

/-- A relation between a store and the next one holds for every act if it holds for nothing at all,
for a stream that is told how to key its items, and for dropping the streams, and it makes no
difference that streams are changed which keep their numbers. -/
theorem act_induction {R : Streams → Streams → Prop} (hrefl : ∀ s, R s s)
    (hkeyBy : ∀ s name keyOf, R s (s.keyBy name keyOf)) (hclear : ∀ s, R s s.clear)
    (hmodify : ∀ (s s' : Streams) name (f : Stream → Stream), (∀ t, (f t).number = t.number) →
      R s s' → R s (s'.modify name f))
    (state : Streams × Lists) (a : Act) : R state.1 (act state a).1 := by
  cases a with
  | clear => exact hclear state.1
  | command cmd =>
      cases cmd with
      | keyBy name keyOf => exact hkeyBy state.1 name keyOf
      | change name c =>
          simp only [act, exec, Streams.change]
          split
          · next s' hs =>
              split at hs
              · cases hs
              · next keyed _ =>
                  obtain rfl := Except.ok.inj hs
                  refine hmodify _ _ name _ (fun t => number_queue t keyed) ?_
                  split
                  · exact hrefl state.1
                  · exact hkeyBy state.1 name _
          · exact hrefl state.1
      | flush name =>
          simp only [act, exec, Streams.flush]
          split
          · exact hmodify _ _ name _ (fun _ => rfl) (hrefl state.1)
          · exact hrefl state.1
      | flushAll skipped =>
          exact List.foldlRecOn _ _ (hrefl state.1) fun s' h e _ =>
            hmodify _ s' e.1 _ (fun _ => rfl) h

theorem onward_act (state : Streams × Lists) (a : Act) : Onward state.1 (act state a).1 :=
  act_induction Onward.refl Onward.keyBy Onward.clear
    (fun _ s' name _ hf h => h.trans (Onward.modify s' name hf)) state a

theorem onward_acts (state : Streams × Lists) (acts : List Act) :
    Onward state.1 (acts.foldl act state).1 :=
  List.foldlRecOn (motive := fun state' => Onward state.1 state'.1) acts act (.refl state.1)
    fun state' h a _ => h.trans (onward_act state' a)

theorem numbered_life (acts : List Act) : (life acts).1.Numbered :=
  List.foldlRecOn (motive := fun state : Streams × Lists => state.1.Numbered) acts act
    (Numbered.clear {}) fun state h a _ =>
      act_induction (R := fun s s' => s.Numbered → s'.Numbered) (fun _ => id)
        (fun _ name keyOf h => h.keyBy name keyOf) (fun s _ => .clear s)
        (fun _ _ name _ hf h hs => (h hs).modify name hf) state a h

/-- An act gives out one number at most. -/
theorem nextNumber_act (state : Streams × Lists) (a : Act) :
    (act state a).1.nextNumber ≤ state.1.nextNumber + 1 := by
  refine act_induction (R := fun s s' => s'.nextNumber ≤ s.nextNumber + 1) (fun _ => Nat.le_succ _)
    (fun s name keyOf => ?_) (fun _ => Nat.le_succ _) (fun _ _ _ _ _ => id) state a
  unfold keyBy
  split
  · exact Nat.le_succ _
  · exact Nat.le_refl _

/-- No more numbers are given out than there are acts. -/
theorem nextNumber_life (acts : List Act) : (life acts).1.nextNumber ≤ acts.length := by
  induction acts using List.reverseRecOn with
  | nil => exact Nat.le_refl _
  | append_singleton acts a ih =>
      rw [life_append, List.length_append]
      exact Nat.le_trans (nextNumber_act (life acts) a) (Nat.add_le_add_right ih 1)

/-- **A number stands for one stream for good**: it is not given out again, and if a stream has it
later on, it is the same one, and streams were not dropped in between. -/
theorem eq_of_number_life {acts more : List Act} {name name' : String} {t t' : Stream}
    (ht : (life acts).1.get? name = some t) (ht' : (life (acts ++ more)).1.get? name' = some t')
    (heq : t'.number = t.number) : name' = name ∧ .clear ∉ more := by
  have hnum := numbered_life acts
  have hlt : t.number < (life acts).1.nextNumber := hnum.below _ (Keyed.mem_of_get? ht)
  rw [life_append] at ht'
  refine ⟨?_, fun hclear => ?_⟩
  · rcases (onward_acts (life acts) more).kept name' t' ht' with hnew | ⟨u, hu, hsame⟩
    · omega
    · exact hnum.eq_of_number_eq ht hu (hsame.symm.trans heq)
  · obtain ⟨first, rest, rfl⟩ := List.append_of_mem hclear
    rw [List.foldl_append, List.foldl_cons] at ht'
    generalize hmid : first.foldl act (life acts) = mid at ht'
    have hfirst := (hmid ▸ onward_acts (life acts) first).next
    -- everything that is there after the dropping came up after it
    rcases (onward_acts (act mid .clear) rest).kept name' t' ht' with hnew | ⟨u, hu, -⟩
    · change mid.1.nextNumber ≤ t'.number at hnew
      omega
    · cases hu

end ViewSync.Streams
