import ViewSync.Proofs.Roster.Allotment
import ViewSync.Proofs.Roster.Capacity
import ViewSync.Proofs.View.Dangling
import ViewSync.Proofs.View.Durable
import ViewSync.Proofs.View.Ordered

/-!
# How the handles of a view are divided up

Between commands each handle that there is a slot for is at exactly one stage: it is that of a live
component, or of a retired one that the client has yet to be told of, or it is to spare. Whenever a
component is born, by a command or in the course of a pass, it gets the least handle that is neither
live nor retired at that moment.
-/

namespace ViewSync

namespace Roster

/-- Where a handle is between two commands. -/
inductive Stage where
  | live
  | retired
  | spare

/-- The table of ids has the live handles; those that are retired or to spare are listed. -/
def IsAt (r : Roster) (h : Handle) : Stage → Prop
  | .live => ∃ id, r.handle? id = some h
  | .retired => h ∈ r.retired
  | .spare => h ∈ r.spare

/-- Handles, ids, records and the queue go together, within a limit on live components. -/
structure Allotment (limit : Option Nat) (r : Roster) : Prop where
  /-- Every handle is at exactly one stage. -/
  stage : ∀ h < r.slots.length, ∃ s, ∀ s', r.IsAt h s' ↔ s' = s
  /-- The handles to spare are those with an empty slot. -/
  spare_iff : ∀ h, h ∈ r.spare ↔ r.slots[h]? = some none
  /-- The ids are those of the live records. -/
  listed_iff : ∀ id h, r.handle? id = some h ↔
    ∃ c, r.get? h = some c ∧ c.id = id ∧ c.handle = h ∧ c.retired = false
  /-- The handles that are retired are those of the retired records. -/
  retired_iff : ∀ h, h ∈ r.retired ↔ ∃ c, r.get? h = some c ∧ c.handle = h ∧ c.retired = true
  /-- No id has two handles. -/
  one_handle : r.ids.keys.Nodup
  /-- No handle has two ids. -/
  one_id : ∀ id id' h, r.handle? id = some h → r.handle? id' = some h → id = id'
  /-- Nothing is queued twice. -/
  queue_nodup : r.queue.Nodup
  /-- What is queued is live or retired. -/
  queued : ∀ h ∈ r.queue, r.IsAt h .live ∨ r.IsAt h .retired
  /-- No more components are live than the limit allows. -/
  size : ∀ n, limit = some n → r.size ≤ n

variable {r : Roster}

/-- A handle with a record is live or retired, but not both, and not to spare. -/
theorem Arena.isAt_of_get? (hr : r.Arena) {h : Handle} {c : Component} (hc : r.get? h = some c) :
    ∀ s, r.IsAt h s ↔ s = if c.retired then .retired else .live := by
  have hlive : r.IsAt h .live ↔ c.retired = false := by
    constructor
    · rintro ⟨id, hid⟩
      obtain ⟨d, hd, -, hret⟩ := (hr.ids_iff id h).mp hid
      obtain rfl := Option.some.inj (hc.symm.trans hd)
      exact hret
    · exact fun hret => ⟨c.id, (hr.ids_iff c.id h).mpr ⟨c, hc, rfl, hret⟩⟩
  have hretired : r.IsAt h .retired ↔ c.retired = true := by
    refine (hr.retired_iff h).trans ⟨?_, fun hret => ⟨c, hc, hret⟩⟩
    rintro ⟨d, hd, hret⟩
    obtain rfl := Option.some.inj (hc.symm.trans hd)
    exact hret
  intro s
  cases s with
  | live => rw [hlive]; cases c.retired <;> simp
  | retired => rw [hretired]; cases c.retired <;> simp
  | spare =>
      refine iff_of_false (hr.not_spare hc) ?_
      cases c.retired <;> simp

/-- A handle without a record is to spare, and neither live nor retired. -/
theorem Stocked.isAt_of_none (hs : r.Stocked) (hr : r.Arena) {h : Handle}
    (hlt : h < r.slots.length) (hnone : r.get? h = none) : ∀ s, r.IsAt h s ↔ s = .spare := by
  obtain ⟨hlive, hretired⟩ := hr.unused_iff.mpr hnone
  intro s
  cases s with
  | live => exact iff_of_false (fun ⟨id, hid⟩ => hlive id hid) (by simp)
  | retired => exact iff_of_false hretired (by simp)
  | spare => exact iff_of_true (hs.packed h hlt hnone) rfl

theorem Stocked.allotment (hs : r.Stocked) (hr : r.Arena) (hqueue : r.queue.Nodup)
    {limit : Option Nat} (hwithin : Within limit r) : Allotment limit r where
  stage h hlt := by
    cases hc : r.get? h with
    | none => exact ⟨.spare, hs.isAt_of_none hr hlt hc⟩
    | some c => exact ⟨_, hr.isAt_of_get? hc⟩
  spare_iff h := by
    refine ⟨hr.spare_empty h, fun hempty => ?_⟩
    exact hs.packed h (List.getElem?_eq_some_iff.mp hempty).1 (get?_of_empty hempty)
  listed_iff id h := by
    refine (hr.ids_iff id h).trans ⟨?_, ?_⟩
    · rintro ⟨c, hc, hid, hret⟩
      exact ⟨c, hc, hid, hr.handle_eq h c hc, hret⟩
    · rintro ⟨c, hc, hid, -, hret⟩
      exact ⟨c, hc, hid, hret⟩
  retired_iff h := by
    refine (hr.retired_iff h).trans ⟨?_, ?_⟩
    · rintro ⟨c, hc, hret⟩
      exact ⟨c, hc, hr.handle_eq h c hc, hret⟩
    · rintro ⟨c, hc, -, hret⟩
      exact ⟨c, hc, hret⟩
  one_handle := Keyed.nodup_keys hr.ids_sorted
  one_id id id' h hid hid' := by
    obtain ⟨c, hc, rfl, -⟩ := (hr.ids_iff id h).mp hid
    obtain ⟨d, hd, rfl, -⟩ := (hr.ids_iff id' h).mp hid'
    rw [Option.some.inj (hc.symm.trans hd)]
  queue_nodup := hqueue
  queued h hh := by
    obtain ⟨c, hc⟩ := Option.ne_none_iff_exists'.mp (hs.queued h hh)
    cases hret : c.retired with
    | false => exact .inl ((hr.isAt_of_get? hc .live).mpr (by simp [hret]))
    | true => exact .inr ((hr.isAt_of_get? hc .retired).mpr (by simp [hret]))
  size := hwithin.size

end Roster

namespace View

open Roster

variable {v v' : View}

/-! ## Births -/

/-- The handles that a command gives to new components, in order. -/
def births (v : View) : Command → List Handle
  | .mount id kind props =>
    match (v.mount id kind props).1 with
    | .ok h => if v.roster.has id then [] else [h]
    | .error _ => []
  | .render fuel => (v.renderAll fuel v.opened).elim [] fun x => x.2.roster.born
  | _ => []

/-- A pass gives handles out in turn, however it goes. -/
theorem bore_renderAll (hrest : v.roster.Resting) (hp : v.roster.Packed) {fuel : Nat} {p : Pass}
    {result : Except Error Rendering} (hall : v.renderAll fuel v.opened = some (result, p)) :
    Bore v.roster p.roster := by
  have hroot := Pass.yields_template ((Bearing.steady v.roster v.host).closed none [])
    (s := Scope.ofAssigns v.assigns) (t := v.root) (Scope.all_true _) (Template.makes_true _)
    v.sent v.opened ⟨fun _ _ _ _ _ => trivial, hrest.bearing_openPass hp⟩
  rcases renderAll_cases hall with ⟨e, hrun⟩ | ⟨root, p₁, queued, hrun, hqueue⟩
  · rw [hrun] at hroot
    exact .of_bearing hroot.1.2
  · rw [hrun] at hroot
    exact .renderQueue hroot.1.2 hqueue

/-- **New components get their handles in turn.** -/
theorem inTurn_births (hrest : v.roster.Resting) (hp : v.roster.Packed) (cmd : Command) :
    v.roster.InTurn (v.births cmd) := by
  have hnil : v.roster.InTurn [] := inTurn_nil v.roster
  cases cmd with
  | mount id kind props =>
      unfold births
      dsimp only
      split
      · next h hok =>
          split
          · exact hnil
          · next hnew =>
              have hid : v.roster.handle? id = none := by simpa [has, Keyed.has, handle?] using hnew
              rw [eq_takeHandle_of_mount hid hok]
              exact hnil.concat (hp.isNext_takeHandle hrest.arena)
      · exact hnil
  | render fuel =>
      unfold births
      dsimp only
      cases hall : v.renderAll fuel v.opened with
      | none => exact hnil
      | some x => exact (bore_renderAll hrest hp hall).turn
  | _ => exact hnil

/-- No handle comes into use but those of new components. -/
theorem mem_births (hrest : v.roster.Resting) (hp : v.roster.Packed) {cmd : Command}
    {answer : Answer} (hx : v.exec cmd = some (answer, v')) {h : Handle}
    (hbefore : v.roster.Unused h) (hafter : ¬v'.roster.Unused h) : h ∈ v.births cmd := by
  have hold := hrest.arena.unused_iff.mp hbefore
  have hnew := mt (resting_exec hrest hx).arena.unused_iff.mpr hafter
  -- what the client was told of has no record left, and all else had one before
  have htold {r : Roster} (hin : r.tell.2.reclaim.get? h ≠ none) : r.get? h ≠ none := by
    rw [get?_reclaim_tell] at hin
    split at hin
    · exact absurd rfl hin
    · exact hin
  cases effect_of_exec hx with
  | mount id kind props unsent =>
      obtain ⟨hid, hok⟩ := created_of_refer hrest.arena.spare_empty hold hnew
      unfold births
      have hmount : (v.mount id kind props).1 = .ok h := by
        rw [mount_fst, hok]
        rfl
      simp [hmount, has, Keyed.has, show v.roster.ids.get? id = none from hid]
  | unmount id unsent =>
      refine absurd (((sameUse_retire v.roster id).records h).mpr hold) ?_
      rw [← unmount_snd]
      exact hnew
  | deliver id props unsent =>
      exact absurd (((sameUse_deliver v.roster v.host.kinds id props).1.records h).mpr hold) hnew
  | @render fuel result _ hr =>
      cases result with
      | error e =>
          rw [render_error hrest hr] at hnew
          exact absurd hold hnew
      | ok outcome =>
          obtain ⟨done, p, hall, -, rfl⟩ := render_ok hr
          have hclosed := mt ((sameUse_closePass p.roster _).records h).mpr (htold hnew)
          unfold births
          dsimp only
          rw [hall]
          exact (bore_renderAll hrest hp hall).records h hclosed hbefore
  | close =>
      exact absurd (((sameUse_retireAll v.roster.ids.keys v.roster).records h).mpr hold)
        (htold hnew)
  | _ => exact absurd hold hnew

/-! ## Between commands -/

/-- **No command leaves a slot wasted, or anything queued that has no record.** -/
theorem stocked_exec (hs : Standing (fun _ => True) v) (hstocked : v.roster.Stocked)
    {cmd : Command} {answer : Answer} (hx : v.exec cmd = some (answer, v')) :
    v'.roster.Stocked := by
  have harena := hs.resting.arena
  cases effect_of_exec hx with
  | mount id kind props unsent => exact hstocked.refer harena v.host.kinds id kind props none
  | unmount id unsent =>
      change (v.roster.unmount id).2.Stocked
      rw [unmount_snd]
      exact hstocked.congr (sameUse_retire v.roster id) fun k hk =>
        .inl ((retires_retire v.roster id).queue ▸ hk)
  | deliver id props unsent =>
      obtain ⟨hsame, hqueue⟩ := sameUse_deliver v.roster v.host.kinds id props
      exact hstocked.congr hsame hqueue
  | @render fuel result _ hr =>
      cases result with
      | error e =>
          rw [render_error hs.resting hr]
          exact hstocked
      | ok outcome =>
          obtain ⟨done, p, hall, -, rfl⟩ := render_ok hr
          have hbore := bore_renderAll hs.resting hstocked.packed hall
          have hdrained := (hs.renderAll hall).1.queue
          -- nothing is queued any more at the end of a pass
          have hend : p.roster.Stocked :=
            ⟨hbore.packed, fun k hk => by rw [hdrained] at hk; cases hk⟩
          have hclosed := (arena_renderAll hs.resting hall).closePass
          exact (hend.closePass _).reclaim_tell (hclosed _).arena
  | close =>
      exact (hstocked.retireAll v.roster.ids.keys).reclaim_tell hs.resting.unmountEach.arena
  | _ => exact hstocked

theorem stocked_reachable {host : Host} {root : Template} (hv : Reachable host root v) :
    v.roster.Stocked := by
  refine (hv.invariant (P := fun v => Standing (fun _ => True) v ∧ v.roster.Stocked)
    ⟨standing_start trivial fun _ _ => trivial, stocked_ofConfig host.config⟩ ?_).2
  exact fun _ _ _ _ h hx => ⟨h.1.exec hx, stocked_exec h.1 h.2 hx⟩

theorem within_reachable {host : Host} {root : Template} (hv : Reachable host root v) :
    Within host.config.maxComponents v.roster := by
  refine (hv.invariant (P := fun v => v.roster.Resting ∧
    Within host.config.maxComponents v.roster)
    ⟨resting_ofConfig host.config, within_ofConfig host.config⟩ ?_).2
  intro v v' cmd answer h hx
  refine ⟨resting_exec h.1 hx, (durable_within _).exec (fun _ _ s before => ?_)
    (fun s before => ?_) (fun r id kind props hr => ?_) h.1 h.2 hx⟩
  · exact yields_within v.host _ _ s before
  · exact yields_within v.host _ v.root s before
  · exact hr.refer v.host.kinds id kind props none

/-- **Handles are divided up, and given out in turn.** In every state of a view the handles, ids,
records and the queue go together, within the limit that the host has set; and whatever the next
command is, each handle that comes into use is given to a new component, and is the least one that
is not in use when it is given. -/
theorem allotment_reachable {host : Host} {root : Template} (hv : Reachable host root v) :
    Allotment host.config.maxComponents v.roster ∧
      ∀ cmd, v.roster.InTurn (v.births cmd) ∧
        ∀ answer v', v.exec cmd = some (answer, v') →
          ∀ h, v.roster.Unused h → ¬v'.roster.Unused h → h ∈ v.births cmd := by
  have hrest := resting_reachable hv
  have hstocked := stocked_reachable hv
  have hnodup := (tidy_reachable hv).nodup
  refine ⟨hstocked.allotment hrest.arena hnodup (within_reachable hv), fun cmd => ⟨?_, ?_⟩⟩
  · exact inTurn_births hrest hstocked.packed cmd
  · exact fun answer v' hx h => mem_births hrest hstocked.packed hx

/-- The panel's host, when it allows no more than three components. -/
def crampedHost : Host := { panelHost with config := { maxComponents := some 3 } }

/-- Two components are mounted, taken out with all else, and one of them mounted again. -/
def remounted : List Command :=
  [.mount "left" ⟨"aside", "aside"⟩ [], .mount "right" ⟨"aside", "aside"⟩ [], .close,
    .mount "right" ⟨"aside", "aside"⟩ []]

/-- What is mounted again has the first handle, and the next pass gives out the handle that is to
spare and then a new one. -/
theorem remounted_allotment : ∃ v, Reachable crampedHost panelPage v ∧
    v.roster.handle? "right" = some 0 ∧ v.births (.render 3) = [1, 2] ∧
    Allotment (some 3) v.roster ∧ v.roster.InTurn (v.births (.render 3)) := by
  have hgood : ((ofTemplate crampedHost panelPage).run remounted).any (fun x =>
      x.2.roster.handle? "right" = some 0 && x.2.births (.render 3) = [1, 2]) = true := by
    decide +kernel
  obtain ⟨⟨answers, v⟩, hrun, hgood⟩ := (Option.any_eq_true ..).mp hgood
  simp only [Bool.and_eq_true, decide_eq_true_eq] at hgood
  have hreach : Reachable crampedHost panelPage v := Reachable.start.run hrun
  obtain ⟨hallotment, hturn⟩ := allotment_reachable hreach
  exact ⟨v, hreach, hgood.1, hgood.2, hallotment, (hturn (.render 3)).1⟩

end View

end ViewSync
