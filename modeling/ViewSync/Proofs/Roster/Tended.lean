import ViewSync.Proofs.Roster.Queued
import ViewSync.Proofs.Roster.Turns

/-!
# The turns of one component

What becomes of one handle while the queue is drained, in any state of the roster. A component that
was drawn has its last tree and is not stillborn; one that is stillborn does not have another turn;
and as long as no other record has its id and may come to be stillborn, the id is safe as well.
-/

namespace ViewSync.Roster

open ViewSync.Pass

variable {kinds : Kinds} {host : Host} {h : Handle} {id : String} {c : Component} {m : Moment}
variable {ds : List Drawing} {r r' : Roster} {former former' : FormerTrees}

theorem Queues.not_mem {queue : List Handle} (hq : Queues r queue) (hout : h ∉ r.queue)
    (hnew : h ≠ r.takeHandle.1) (hborn : h ∈ r.stillborn ∨ r.get? h = none) : h ∉ queue := by
  rcases hq with rfl | ⟨k, -, rfl, hk⟩
  · exact hout
  · intro hin
    rcases List.mem_append.mp hin with hin | hin
    · exact hout hin
    · obtain rfl := List.mem_singleton.mp hin
      rcases hk with ⟨hk, hget⟩ | hk
      · exact hborn.elim hk hget
      · exact hnew hk

/-! ## Handles to spare -/

theorem spare_edit {Good : Value → Prop} (he : Edit kinds Good r r') :
    r'.spare = r.spare ∨ r'.spare = r.spare.tail := by
  cases he with
  | create _ _ _ _ _ _ _ _ _ => exact .inr (by rw [create_rest])
  | _ => exact .inl rfl

/-- A handle to spare has no record, if it had none before. -/
theorem get?_spare_edit {Good : Value → Prop} (hsorted : KeySet.Sorted r.spare)
    (he : Edit kinds Good r r') (hnone : r.get? h = none) (hin : h ∈ r'.spare) :
    r'.get? h = none := by
  cases he with
  | marks _ _ => exact hnone
  | keep _ => exact hnone
  | @rewrite k d props owner seen queue hd _ _ =>
      have hne : h ≠ k := by
        intro heq
        rw [heq, hd] at hnone
        cases hnone
      exact (get?_handOver kinds hd props owner h).trans ((if_neg hne).trans hnone)
  | @create id kind props a b owner seen queue _ _ _ _ _ _ =>
      change h ∈ (r.create id kind b owner).spare at hin
      rw [create_rest] at hin
      refine (get?_create_of_ne fun heq => ?_).trans hnone
      exact takeHandle_not_mem_tail hsorted (heq ▸ hin)

/-! ## Drawn, or stillborn, or neither -/

/-- What is known of a handle at each moment of a drain. -/
structure Tended (h : Handle) (ds : List Drawing) (m : Moment) : Prop where
  /-- Nothing is queued twice. -/
  queue : m.roster.queue.Nodup
  /-- The handles to spare are in order. -/
  sorted : KeySet.Sorted m.roster.spare
  /-- A handle to spare has no record. -/
  spare : h ∈ m.roster.spare → m.record? h = none
  /-- While its record is away, it is neither queued nor stillborn. -/
  away : ∀ c, m.away = some (h, c) →
    Away m.roster h ∧ h ∉ m.roster.queue ∧ h ∉ m.roster.stillborn
  /-- If it is stillborn, it is not queued and has a record. -/
  stillborn : h ∈ m.roster.stillborn → h ∉ m.roster.queue ∧ m.record? h ≠ none
  /-- If it was drawn, it is not stillborn and has the tree of its last drawing. -/
  drawn : ∀ t, lastDrawn ds h = some t →
    h ∉ m.roster.stillborn ∧ ∃ d, m.record? h = some d ∧ d.tree = some t
  /-- If its tree from before is noted, it was drawn. -/
  former : m.former.get? h ≠ none → lastDrawn ds h ≠ none

/-- A record that is not the one out of its slot. -/
theorem record?_of_ne {k : Handle} (hk : k ≠ h) :
    (⟨some (k, c), r, former⟩ : Moment).record? h = r.get? h := if_neg hk

theorem record?_self : (⟨some (h, c), r, former⟩ : Moment).record? h = some c := if_pos rfl

namespace Tended

theorem lt_slots (ht : Tended h ds m) (hc : m.record? h = some c) : h < m.roster.slots.length := by
  rcases record?_cases m h with ⟨d, haway, -⟩ | hin
  · exact (List.getElem?_eq_some_iff.mp (ht.away d haway).1.1).1
  · exact lt_of_get? ((hin m.roster).symm.trans hc)

/-- **References change nothing of it.** -/
theorem refer (ht : Tended h ds m) (kinds : Kinds) (id : String) (kind : KindRef) (props : Fields)
    (owner : Option StreamEntry) :
    Tended h ds { m with roster := (m.roster.refer kinds id kind props owner).2 } := by
  have he := edit_refer_any kinds m.roster id kind props owner
  have hq := queues_refer kinds m.roster id kind props owner
  have hborn : (m.roster.refer kinds id kind props owner).2.stillborn = m.roster.stillborn :=
    stillborn_refer id kind props owner
  generalize (m.roster.refer kinds id kind props owner).2 = r' at he hq hborn ⊢
  have hsorted : KeySet.Sorted r'.spare := by
    rcases spare_edit he with hspare | hspare
    · exact hspare ▸ ht.sorted
    · exact hspare ▸ ht.sorted.sublist (List.tail_sublist _)
  cases hc : m.record? h with
  | none =>
      have hout : h ∉ m.roster.stillborn := fun hin => (ht.stillborn hin).2 hc
      have hundrawn (t : Tree) (hlast : lastDrawn ds h = some t) : False := by
        obtain ⟨-, d, hd, -⟩ := ht.drawn t hlast
        cases hc.symm.trans hd
      have hin : ∀ r, ({ m with roster := r } : Moment).record? h = r.get? h := by
        rcases record?_cases m h with ⟨d, -, haway⟩ | hin
        · cases hc.symm.trans (haway m.roster)
        · exact hin
      refine ⟨hq.nodup ht.queue, hsorted, fun hspare => ?_, fun d haway => ?_, fun hin => ?_,
        fun t hlast => (hundrawn t hlast).elim, ht.former⟩
      · exact (hin r').trans
          (get?_spare_edit ht.sorted he ((hin m.roster).symm.trans hc) hspare)
      · unfold Moment.record? at hc
        rw [haway] at hc
        cases (if_pos rfl).symm.trans hc
      · exact absurd (hborn ▸ hin) hout
  | some d =>
      have hspare : h ∉ m.roster.spare := fun hin => by cases (ht.spare hin).symm.trans hc
      have hlt := ht.lt_slots hc
      have hnew := ne_takeHandle hspare hlt
      obtain ⟨hspare', -, assigns, owner', hc'⟩ := record?_edit hspare hlt he hc
      refine ⟨hq.nodup ht.queue, hsorted, fun hin => absurd hin hspare', fun b haway => ?_,
        fun hin => ?_, fun t hlast => ?_, ht.former⟩
      · obtain ⟨haway, hout, hborn'⟩ := ht.away b haway
        exact ⟨(he.behind haway d).2, hq.not_mem hout hnew (.inr haway.get?),
          fun hin => hborn' (hborn ▸ hin)⟩
      · have hin : h ∈ m.roster.stillborn := hborn ▸ hin
        refine ⟨hq.not_mem (ht.stillborn hin).1 hnew (.inl hin), ?_⟩
        rw [hc']
        exact Option.some_ne_none _
      · obtain ⟨hout, b, hb, htree⟩ := ht.drawn t hlast
        obtain rfl := Option.some.inj (hc.symm.trans hb)
        exact ⟨fun hin => hout (hborn ▸ hin), _, hc', htree⟩

/-- What is next in the queue may be passed over. -/
theorem skip {queue : List Handle} {k : Handle} (ht : Tended h ds ⟨none, r, former⟩)
    (hq : r.queue = k :: queue) : Tended h ds ⟨none, { r with queue }, former⟩ where
  queue := (hq ▸ ht.queue : (k :: queue).Nodup).of_cons
  sorted := ht.sorted
  spare := ht.spare
  away _ haway := by cases haway
  stillborn hin := ⟨fun hmem => (ht.stillborn hin).1 (hq ▸ List.mem_cons_of_mem k hmem),
    (ht.stillborn hin).2⟩
  drawn := ht.drawn
  former := ht.former

/-- A record may be taken out of its slot. -/
theorem lift {queue : List Handle} {k : Handle} (ht : Tended h ds ⟨none, r, former⟩)
    (hq : r.queue = k :: queue) (hc : r.get? k = some c) :
    Tended h ds ⟨some (k, c), ({ r with queue }.keepState c).vacate k, former⟩ := by
  have hrecord : (⟨some (k, c), ({ r with queue }.keepState c).vacate k, former⟩ : Moment).record?
      h = r.get? h := record?_lift hc queue
  have hskip := ht.skip hq
  refine ⟨hskip.queue, ht.sorted, fun hin => hrecord.trans (ht.spare hin), fun d haway => ?_,
    fun hin => ⟨(hskip.stillborn hin).1, hrecord ▸ (ht.stillborn hin).2⟩,
    fun t hlast => hrecord ▸ ht.drawn t hlast, ht.former⟩
  obtain ⟨rfl, rfl⟩ := Prod.mk.inj (Option.some.inj haway)
  refine ⟨⟨List.getElem?_set_self (lt_of_get? hc), fun hin => ?_⟩, ?_, fun hin => ?_⟩
  · cases hc.symm.trans (ht.spare hin)
  · exact (List.nodup_cons.mp (hq ▸ ht.queue : (k :: queue).Nodup)).1
  · exact (ht.stillborn hin).1 (hq ▸ List.mem_cons_self)

/-- Another record may be put back, with a tree or without. -/
theorem putBack_other {k : Handle} {b : Component} {ds' : List Drawing}
    (ht : Tended h ds ⟨some (k, c), r, former⟩) (hk : k ≠ h) (hslots : r'.slots = (r.put k b).slots)
    (hqueue : r'.queue = r.queue) (hspare : r'.spare = r.spare)
    (hborn : h ∈ r'.stillborn → h ∈ r.stillborn) (hlast : lastDrawn ds' h = lastDrawn ds h)
    (hformer : former'.get? h = former.get? h) : Tended h ds' ⟨none, r', former'⟩ := by
  have hrecord : (⟨none, r', former'⟩ : Moment).record? h =
      (⟨some (k, c), r, former⟩ : Moment).record? h := by
    rw [record?_of_ne hk, ← get?_put_of_ne (Ne.symm hk) b]
    change r'.get? h = _
    rw [get?, get?, hslots]
  refine ⟨hqueue ▸ ht.queue, hspare ▸ ht.sorted, fun hin => hrecord.trans (ht.spare (hspare ▸ hin)),
    fun _ haway => (by cases haway), fun hin => ?_, fun t hdrawn => ?_, fun hf => ?_⟩
  · obtain ⟨hout, hnone⟩ := ht.stillborn (hborn hin)
    exact ⟨fun hmem => hout (hqueue ▸ hmem), hrecord ▸ hnone⟩
  · obtain ⟨hout, d, hd, htree⟩ := ht.drawn t (hlast ▸ hdrawn)
    exact ⟨fun hin => hout (hborn hin), d, hrecord.trans hd, htree⟩
  · rw [hlast]
    exact ht.former (hformer ▸ hf)

/-- The record itself may be put back. If it is stillborn now, it has not been drawn. -/
theorem putBack_self {b : Component} {ds' : List Drawing}
    (ht : Tended h ds ⟨some (h, c), r, former⟩) (hslots : r'.slots = (r.put h b).slots)
    (hqueue : r'.queue = r.queue) (hspare : r'.spare = r.spare)
    (hborn : h ∈ r'.stillborn → h ∈ r.stillborn ∨ b.tree = none)
    (hlast : ∀ t, lastDrawn ds' h = some t → b.tree = some t)
    (hformer : former'.get? h ≠ none → lastDrawn ds' h ≠ none) :
    Tended h ds' ⟨none, r', former'⟩ := by
  obtain ⟨haway, hout, hborn₀⟩ := ht.away c rfl
  have hrecord : (⟨none, r', former'⟩ : Moment).record? h = some b := by
    change r'.get? h = _
    rw [get?, hslots]
    exact (get?_put (List.getElem?_eq_some_iff.mp haway.1).1 b h).trans (if_pos rfl)
  refine ⟨hqueue ▸ ht.queue, hspare ▸ ht.sorted, fun hin => absurd (hspare ▸ hin) haway.2,
    fun _ haway => (by cases haway), fun _ => ?_, fun t hdrawn => ⟨fun hin => ?_, b, hrecord,
    hlast t hdrawn⟩, hformer⟩
  · rw [hrecord]
    exact ⟨fun hmem => hout (hqueue ▸ hmem), Option.some_ne_none _⟩
  · have hnone := (hborn hin).resolve_left hborn₀
    cases hnone.symm.trans (hlast t hdrawn)

end Tended

/-- **What is known of a handle is known throughout.** -/
theorem carried_tended (host : Host) (h : Handle) : Carried host (Tended h) where
  refer id kind props owner ht := ht.refer host.kinds id kind props owner
  marks _ _ ht := ⟨ht.queue, ht.sorted, ht.spare, ht.away, ht.stillborn, ht.drawn, ht.former⟩
  skip ht hq := ht.skip hq
  lift ht hq hc _ := ht.lift hq hc
  redraw {ds r former k c} t taken ht := by
    by_cases hk : k = h
    · subst hk
      refine ht.putBack_self (b := { c with tree := some t, assigns := c.assigns.settled }) rfl rfl
        rfl .inl (fun u hlast => ?_) fun _ => ?_
      · rw [lastDrawn_append, lastDrawn_singleton, if_pos rfl] at hlast
        exact hlast
      · rw [lastDrawn_append, lastDrawn_singleton, if_pos rfl]
        exact Option.some_ne_none t
    · refine ht.putBack_other (b := { c with tree := some t, assigns := c.assigns.settled }) hk rfl
        rfl rfl (fun hin => hin) ?_ ?_
      · rw [lastDrawn_append, lastDrawn_singleton, if_neg hk, Option.none_or]
      · rw [Keyed.get?_insertNew, if_neg (Ne.symm hk)]
  fail {ds r former k c} e taken ht := by
    obtain ⟨stillborn, heq, hiff⟩ := putBack_of_fail r k c
    rw [heq]
    have hlast : lastDrawn (ds ++ [⟨k, .error e, taken⟩]) h = lastDrawn ds h := by
      rw [lastDrawn_append, lastDrawn_singleton]
      split <;> rfl
    by_cases hk : k = h
    · subst hk
      refine ht.putBack_self (b := c) rfl rfl rfl (fun hin => ?_) (fun t hdrawn => ?_)
        fun hf => hlast ▸ ht.former hf
      · exact ((hiff k).mp hin).imp_right fun hnone => hnone.2
      · obtain ⟨-, d, hd, htree⟩ := ht.drawn t (hlast ▸ hdrawn)
        obtain rfl := Option.some.inj (record?_self.symm.trans hd)
        exact htree
    · refine ht.putBack_other (b := c) hk rfl rfl rfl (fun hin => ?_) hlast rfl
      exact ((hiff h).mp hin).resolve_right fun heq => hk heq.1.symm

/-- Former trees are noted once for each component. -/
theorem carried_tables (host : Host) : Carried host fun _ m => m.former.Sorted where
  refer _ _ _ _ hf := hf
  marks _ _ hf := hf
  skip hf _ := hf
  lift hf _ _ _ := hf
  redraw {_ _ _ k c} _ _ hf := Keyed.sorted_insertNew hf k c.tree
  fail _ _ hf := hf

end ViewSync.Roster
