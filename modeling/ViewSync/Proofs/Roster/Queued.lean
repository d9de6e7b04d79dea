import ViewSync.Proofs.Roster.Calls
import ViewSync.Proofs.Roster.Patches
import ViewSync.Proofs.Roster.Ranks

/-!
# The queue

Nothing is queued twice, on any roster that calls lead to. A reference queues one component at most,
at the end, and never one that is stillborn or being rendered.
-/

namespace ViewSync.Roster

variable {kinds : Kinds} {host : Host} {p p' : Pass} {r r' : Roster} {h : Handle} {fuel : Nat}
variable {former former' : FormerTrees}

/-- Where a queue comes from: it is as it was, or one more component is at its end, which has a
record and is not stillborn, or is given the next handle. -/
def Queues (r : Roster) (queue : List Handle) : Prop :=
  queue = r.queue ∨ ∃ k ∉ r.queue, queue = r.queue ++ [k] ∧
    ((k ∉ r.stillborn ∧ r.get? k ≠ none) ∨ k = r.takeHandle.1)

theorem queues_schedule {k : Handle} (hqueue : r'.queue = r.queue)
    (hk : (k ∉ r.stillborn ∧ r.get? k ≠ none) ∨ k = r.takeHandle.1) :
    Queues r (r'.schedule k).queue := by
  unfold schedule
  split
  · exact .inl hqueue
  · next hout =>
      rw [hqueue] at hout
      exact .inr ⟨k, hout, congrArg (· ++ [k]) hqueue, hk⟩

/-- **A reference queues one component at most.** -/
theorem queues_refer (kinds : Kinds) (r : Roster) (id : String) (kind : KindRef) (props : Fields)
    (owner : Option StreamEntry) : Queues r (r.refer kinds id kind props owner).2.queue := by
  have hspec := refer_spec kinds r id kind props owner
  generalize (r.refer kinds id kind props owner).1 = x at hspec
  generalize (r.refer kinds id kind props owner).2 = r' at hspec ⊢
  cases hspec with
  | stale _ hborn hc _ =>
      exact queues_schedule rfl (.inl ⟨hborn, by rw [hc]; exact Option.some_ne_none _⟩)
  | @created a b _ _ _ =>
      refine queues_schedule ?_ (.inr rfl)
      rw [see, create_rest]
  | _ => exact .inl rfl

theorem nodup_concat {queue : List Handle} (hq : queue.Nodup) (hout : h ∉ queue) :
    (queue ++ [h]).Nodup := by
  refine List.nodup_append.mpr ⟨hq, List.pairwise_singleton _ h, fun a ha b hb heq => ?_⟩
  obtain rfl := List.mem_singleton.mp hb
  exact hout (heq ▸ ha)

theorem nodup_schedule (hr : r.queue.Nodup) (h : Handle) : (r.schedule h).queue.Nodup := by
  unfold schedule
  split
  · exact hr
  · next hout => exact nodup_concat hr hout

theorem Queues.nodup {queue : List Handle} (hq : Queues r queue) (hr : r.queue.Nodup) :
    queue.Nodup := by
  rcases hq with rfl | ⟨k, hout, rfl, -⟩
  · exact hr
  · exact nodup_concat hr hout

/-! ## Rendering what is queued -/

theorem closed_nodup (kinds : Kinds) :
    Pass.Closed kinds (fun _ => True) fun p => p.roster.queue.Nodup where
  refer p id kind props owner hp _ := (queues_refer kinds p.roster id kind props owner).nodup hp
  follow _ _ hp := hp
  draw p e hp := by
    unfold noteDrawn
    split
    · exact hp
    · exact hp
  take _ _ hp := hp
  note _ _ hp := hp
  items _ _ _ _ _ _ _ := trivial
  keys _ := trivial

theorem nodup_renderOne (hp : p.roster.queue.Nodup) :
    (renderOne host p h former).2.2.roster.queue.Nodup := by
  rcases retired_or_live p.roster h with hret | ⟨c, hc, hlive⟩
  · rw [(renderOne_of_retired host former hret).1]
    exact hp
  · rw [(renderOne_of_live host former hc hlive).1]
    obtain ⟨-, slots, stillborn, hroster, -⟩ := settle_rest (outcomeOf host p h c).2 h c former
      (outcomeOf host p h c).1
    rw [hroster]
    exact (Pass.yields_template (closed_nodup host.kinds) (Scope.all_true _)
      (Template.makes_true _) c.tree { p with roster := (p.roster.keepState c).vacate h } hp).1

theorem nodup_drain {result : Except Error Unit} (hp : p.roster.queue.Nodup)
    (hd : drain host fuel p former = some (result, former', p')) : p'.roster.queue.Nodup := by
  refine (drain_keeps (P := fun _ p _ => p.roster.queue.Nodup)
    (fun {p p' former former' h queue result} hp hq hone => ?_) hp hd).1
  have hnext : (renderOne host { p with roster := { p.roster with queue } } h
      former).2.2.roster.queue.Nodup := nodup_renderOne (hq ▸ hp).of_cons
  rwa [hone] at hnext

theorem nodup_renderQueue {result : Except Error (Keyed Handle Patch)}
    (hp : p.roster.queue.Nodup) (hq : renderQueue host fuel p = some (result, p')) :
    p'.roster.queue.Nodup := by
  unfold renderQueue at hq
  split at hq
  · cases hq
  · next e former p₁ hd =>
      obtain ⟨-, rfl⟩ := Prod.mk.inj (Option.some.inj hq)
      change p₁.roster.queue.Nodup
      exact nodup_drain hp hd
  · next former p₁ hd =>
      obtain ⟨-, rfl⟩ := Prod.mk.inj (Option.some.inj hq)
      obtain ⟨slots, hslots⟩ := patches_rest former p₁.roster.dropStillborn
      change ((p₁.roster.dropStillborn.patches former).2).queue.Nodup
      rw [hslots]
      change p₁.roster.dropStillborn.queue.Nodup
      rw [(dropStillborn_rest p₁.roster).2.1]
      exact nodup_drain hp hd

/-! ## Calls -/

/-- The undo record keeps the queue as it was when the pass was opened. -/
theorem undo_queue_move {m m' : Moment} (hm : Move kinds m m') :
    m'.roster.undo.map Undo.queue = m.roster.undo.map Undo.queue := by
  have hrecord (r : Roster) {f : Undo → Undo} (hf : ∀ u, (f u).queue = u.queue) :
      (r.recordUndo f).undo.map Undo.queue = r.undo.map Undo.queue := by
    unfold recordUndo
    rw [Option.map_map]
    exact congrArg (Option.map · r.undo) (funext hf)
  cases hm with
  | handOver _ _ _ => exact hrecord _ fun _ => rfl
  | create _ _ _ _ =>
      rw [create_rest]
      exact hrecord _ (f := fun u => { u with born := u.born ++ [_] }) fun _ => rfl
  | lift _ => exact hrecord _ fun _ => rfl
  | drop hc =>
      rw [drop_of_get? hc]
      exact hrecord _ fun _ => rfl
  | file => exact hrecord _ fun _ => rfl
  | _ => rfl

theorem undo_queue_moves {m m' : Moment} (hm : Moves kinds m m') :
    m'.roster.undo.map Undo.queue = m.roster.undo.map Undo.queue := by
  induction hm with
  | refl => rfl
  | tail _ hm ih => exact (undo_queue_move hm).trans ih

/-- Nothing is queued twice, nor will be when the pass is undone. -/
structure Unrepeated (r : Roster) : Prop where
  /-- The queue repeats nothing. -/
  queue : r.queue.Nodup
  /-- Nor does the queue that an undo would give back. -/
  undo : ∀ queue, r.undo.map Undo.queue = some queue → queue.Nodup

namespace Unrepeated

theorem inPass (hr : Unrepeated r) (hc : InPass kinds r r') : Unrepeated r' where
  queue := by
    cases hc with
    | refer id kind props owner => exact (queues_refer kinds r id kind props owner).nodup hr.queue
    | follow h => exact hr.queue
    | followTree t => exact hr.queue
    | renderQueue hq => exact nodup_renderQueue hr.queue hq
  undo queue hqueue := hr.undo queue ((undo_queue_moves hc.moves).symm.trans hqueue)

theorem retireAll (hr : Unrepeated r) (ids : List String) : Unrepeated (r.retireAll ids) where
  queue := (retires_retireAll ids r).queue ▸ hr.queue
  undo := by
    refine List.foldlRecOn (motive := fun r' : Roster => ∀ queue,
      r'.undo.map Undo.queue = some queue → queue.Nodup) ids _ hr.undo fun r' hr' id _ => ?_
    rw [(sameMarks_retire r' id).1]
    exact hr'

/-- **No call queues anything twice.** -/
theorem call (hr : Unrepeated r) (hc : Call kinds r r') : Unrepeated r' := by
  cases hc with
  | inPass hc => exact hr.inPass hc
  | openPass =>
      refine ⟨hr.queue, fun queue hqueue => ?_⟩
      obtain rfl := Option.some.inj hqueue
      exact hr.queue
  | closePass holds =>
      exact ⟨(retires_closePass r holds).queue ▸ hr.queue, fun _ hqueue => (by cases hqueue)⟩
  | undoPass =>
      cases hu : r.undo with
      | none =>
          have hsame : r.undoPass = r := by
            unfold Roster.undoPass
            rw [hu]
          rw [hsame]
          exact hr
      | some u =>
          rw [Traced.undoPass_eq hu]
          exact ⟨hr.undo u.queue (by rw [hu]; rfl), fun _ hqueue => (by cases hqueue)⟩
  | tell =>
      obtain ⟨slots, heq, -⟩ := vacate_all (inOrder r.retired) r
      refine ⟨?_, ?_⟩
      · change (((inOrder r.retired).foldl vacate r).queue.filter _).Nodup
        rw [heq]
        exact hr.queue.filter _
      · change ∀ queue, ((inOrder r.retired).foldl vacate r).undo.map _ = _ → _
        rw [heq]
        exact hr.undo
  | reclaim => exact ⟨hr.queue, hr.undo⟩
  | deliver id props =>
      unfold Roster.deliver
      split
      · exact hr
      · split
        · exact hr
        · next c hc =>
            dsimp only
            split
            · exact ⟨hr.queue, hr.undo⟩
            · split
              · refine ⟨nodup_schedule (r := r.put _ _) hr.queue _, ?_⟩
                obtain ⟨queue, hq, -⟩ := schedule_eq (r.put _ _) _
                rw [hq]
                exact hr.undo
              · exact ⟨hr.queue, hr.undo⟩
  | unmount id =>
      rw [unmount_snd]
      exact hr.retireAll [id]
  | unmountEach => exact hr.retireAll _

end Unrepeated

theorem unrepeated_reached (hr : Reached kinds r) : Unrepeated r := by
  obtain ⟨config, hr⟩ := hr
  induction hr with
  | refl => exact ⟨List.nodup_nil, fun _ hqueue => (by cases hqueue)⟩
  | tail _ hc ih => exact ih.call hc

end ViewSync.Roster
