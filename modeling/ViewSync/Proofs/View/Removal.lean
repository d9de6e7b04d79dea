import ViewSync.Proofs.View.Allotment
import ViewSync.Proofs.View.Sighted

/-!
# Each component that is gone is told of once

As long as a component is live, its id keeps its handle. When it leaves the view, its handle is
retired: the client is told of it in the message of the pass that took the component out, or else in
the next message, or when the view is closed if that comes first. No component gets the handle
before that, and no message has it a second time until some component has got it. A pass that fails
tells nothing, and what is retired stays so.
-/

namespace ViewSync

namespace Roster

variable {r r' : Roster} {h : Handle} {id : String}

/-! ## What is retired -/

theorem perm_insertInOrder (h : Handle) (hs : List Handle) :
    (insertInOrder h hs).Perm (h :: hs) := by
  induction hs with
  | nil => exact .refl _
  | cons h' hs ih =>
      unfold insertInOrder
      split
      · exact .refl _
      · exact (ih.cons h').trans (.swap h h' hs)

theorem perm_inOrder (hs : List Handle) : (inOrder hs).Perm hs := by
  unfold inOrder
  induction hs with
  | nil => exact .refl _
  | cons h hs ih => exact (perm_insertInOrder h _).trans (ih.cons h)

/-- The client is told of each handle as often as it was retired. -/
theorem count_tell (r : Roster) (h : Handle) : r.tell.1.count h = r.retired.count h :=
  (perm_inOrder r.retired).count_eq h

/-- Nothing is retired twice. -/
theorem Arena.nodup_retire (hr : r.Arena) (hnodup : r.retired.Nodup) (id : String) :
    (r.retire id).2.retired.Nodup := by
  cases hid : r.handle? id with
  | none =>
      rw [retire_of_none hid]
      exact hnodup
  | some h =>
      obtain ⟨c, hc, -, hlive, heq⟩ := retire_of_handle? hr hid
      rw [heq]
      refine List.nodup_append.mpr ⟨hnodup, List.pairwise_singleton _ h, fun k hk k' hk' => ?_⟩
      obtain rfl := List.mem_singleton.mp hk'
      exact fun hkh => (hr.not_retired_iff hc).mpr hlive (hkh ▸ hk)

theorem Arena.nodup_retireAll (hr : r.Arena) (hnodup : r.retired.Nodup) (ids : List String) :
    (r.retireAll ids).retired.Nodup :=
  (List.foldlRecOn (motive := fun s : Roster => s.Arena ∧ s.retired.Nodup) ids _ ⟨hr, hnodup⟩
    fun _ hs id _ => ⟨hs.1.retire id, hs.1.nodup_retire hs.2 id⟩).2

theorem Arena.nodup_closePass (hr : r.Arena) (hnodup : r.retired.Nodup)
    (holds : StreamEntry → Bool) : (r.closePass holds).2.retired.Nodup := by
  have hfollow : (r.followAll ((r.ownedRecords holds).2.map Component.handle)).Arena :=
    hr.congr rfl rfl rfl rfl rfl
  exact hfollow.nodup_retireAll hnodup _

/-- What is retired is not live. -/
theorem Arena.not_live (hr : r.Arena) (hh : h ∈ r.retired) (id : String) :
    r.handle? id ≠ some h := by
  intro hid
  obtain ⟨c, hc, -, hlive⟩ := (hr.ids_iff id h).mp hid
  exact (hr.not_retired_iff hc).mpr hlive hh

theorem mem_retired_retire (id : String) (hh : h ∈ r.retired) : h ∈ (r.retire id).2.retired := by
  unfold retire
  cases r.handle? id with
  | none => exact hh
  | some k =>
      dsimp only
      cases r.get? k <;> exact List.mem_append_left _ hh

theorem mem_retired_retireAll (ids : List String) (hh : h ∈ r.retired) :
    h ∈ (r.retireAll ids).retired :=
  List.foldlRecOn (motive := fun s : Roster => h ∈ s.retired) ids _ hh
    fun _ hs id _ => mem_retired_retire id hs

/-! ## What stays until the client is told -/

/-- Components with a tree stay or are retired, ids change no handles, and what is retired stays
so. -/
structure Holds (r r' : Roster) : Prop where
  /-- A record with a tree stays, with its id. -/
  record : ∀ h c, r.get? h = some c → c.tree ≠ none →
    ∃ c', r'.get? h = some c' ∧ c'.id = c.id ∧ c'.tree ≠ none
  /-- An id is given no other handle. -/
  listed : ∀ id h h', r.handle? id = some h → r'.handle? id = some h' → h' = h
  /-- What is retired stays so. -/
  retired : ∀ h ∈ r.retired, h ∈ r'.retired

namespace Holds

theorem refl (r : Roster) : Holds r r where
  record _ c hc ht := ⟨c, hc, rfl, ht⟩
  listed _ _ _ hid hid' := Option.some.inj (hid'.symm.trans hid)
  retired _ hh := hh

theorem of_grows (hr : r.Arena) (hr' : r'.Arena) (hg : Grows r r') : Holds r r' where
  record h c hc ht := by
    obtain ⟨c', hc', hid, -, htree⟩ := hg.record h c hc
    exact ⟨c', hc', hid, htree ▸ ht⟩
  listed id h h' hid hid' := by
    obtain ⟨c, hc, hcid, hlive⟩ := (hr.ids_iff id h).mp hid
    obtain ⟨c', hc', hcid', hret, -⟩ := hg.record h c hc
    have hnow := (hr'.ids_iff id h).mpr ⟨c', hc', hcid'.trans hcid, hret.trans hlive⟩
    exact Option.some.inj (hid'.symm.trans hnow)
  retired h hh := hg.retired ▸ hh

/-- Retiring takes ids out, and leaves the records. -/
theorem retires {r'' : Roster} (hh : Holds r r') (hr : Retires r' r'')
    (hids : ∀ id h, r''.handle? id = some h → r'.handle? id = some h)
    (hretired : ∀ h ∈ r'.retired, h ∈ r''.retired) : Holds r r'' where
  record h c hc ht := by
    obtain ⟨c₁, hc₁, hid, ht₁⟩ := hh.record h c hc ht
    have htree : r''.tree? h ≠ none := by
      rw [hr.tree, tree?_of_get? hc₁]
      exact ht₁
    cases hc₂ : r''.get? h with
    | none => exact absurd (tree?_of_none hc₂) htree
    | some c₂ =>
        obtain ⟨d, hd, heq, -⟩ := hr.record h c₂ hc₂
        obtain rfl := Option.some.inj (hc₁.symm.trans hd)
        exact ⟨c₂, rfl, by rw [heq, hid], by rwa [tree?_of_get? hc₂] at htree⟩
  listed id h h' hid hid' := hh.listed id h h' hid (hids id h' hid')
  retired h hin := hretired h (hh.retired h hin)

theorem retireAll (hh : Holds r r') (ids : List String) : Holds r (r'.retireAll ids) := by
  refine hh.retires (retires_retireAll ids r') (fun id h hid => ?_) fun _ =>
    mem_retired_retireAll ids
  rw [handle?_retireAll] at hid
  split at hid
  · cases hid
  · exact hid

theorem closePass (hh : Holds r r') (holds : StreamEntry → Bool) :
    Holds r (r'.closePass holds).2 := by
  have hfollow : Holds r (r'.followAll ((r'.ownedRecords holds).2.map Component.handle)) :=
    ⟨hh.record, hh.listed, hh.retired⟩
  have hclosed := hfollow.retireAll
    (((r'.ownedRecords holds).1 ++ r'.liveRecords.filter fun d =>
      d.owner.isNone && !(r'.seenAtClose holds).contains d.handle).map Component.id)
  exact ⟨hclosed.record, hclosed.listed, hclosed.retired⟩

/-- **What leaves the view is retired**, if it has a tree. -/
theorem mem_retired (hh : Holds r r') (hr : r.Arena) (hr' : r'.Arena)
    (hid : r.handle? id = some h) (htree : r.tree? h ≠ none) (hgone : r'.handle? id = none) :
    h ∈ r'.retired := by
  obtain ⟨c, hc, hcid, -⟩ := (hr.ids_iff id h).mp hid
  obtain ⟨c', hc', hcid', -⟩ := hh.record h c hc (by rwa [tree?_of_get? hc] at htree)
  refine Decidable.byContradiction fun hout => ?_
  have hlive := (hr'.not_retired_iff hc').mp hout
  have hnow := (hr'.ids_iff id h).mpr ⟨c', hc', hcid'.trans hcid, hlive⟩
  exact Option.some_ne_none h (hnow.symm.trans hgone)

end Holds

end Roster

namespace View

open Roster

variable {v w : View} {cmd : Command} {answer : Answer} {h : Handle} {id : String}

/-! ## What a command makes of the roster -/

/-- The handles that an answer lists as gone. -/
def Answer.gone : Answer → List Handle
  | .rendered (.ok outcome) _ => outcome.message.gone
  | .closed gone => gone
  | _ => []

/-- Whether an answer tells the client what is gone. -/
def Answer.tells : Answer → Bool
  | .rendered (.ok _) _ => true
  | .closed _ => true
  | _ => false

/-- What a command makes of the roster, before the client is told of what is gone. -/
structure Untold (v : View) (cmd : Command) (r : Roster) : Prop where
  /-- Records, ids and handles go together. -/
  arena : r.Arena
  /-- Nothing is retired twice. -/
  nodup : r.retired.Nodup
  /-- Components with a tree stay or are retired. -/
  holds : Holds v.roster r
  /-- A handle that was not in use was given out by the command. -/
  fresh : ∀ h, v.roster.Unused h → r.get? h ≠ none → h ∈ v.births cmd

/-- A command tells the client of what is retired by then, or of nothing. -/
inductive Told (r : Roster) (answer : Answer) (r' : Roster) : Prop where
  | all : answer.tells = true → answer.gone = r.tell.1 → r' = r.tell.2.reclaim → Told r answer r'
  | nothing : answer.tells = false → answer.gone = [] → r' = r → Told r answer r'

/-- A pass that goes well holds on to what has a tree. -/
theorem holds_renderAll (hs : Standing (fun _ => True) v) {fuel : Nat} {done : Rendering}
    {p : Pass} (hall : v.renderAll fuel v.opened = some (.ok done, p)) :
    Holds v.roster p.roster := by
  have hrest := hs.resting
  have harena := arena_renderAll hrest hall
  obtain ⟨root, handles, fs, p₁, p₂, former, ha⟩ := hs.account hall
  refine ⟨fun h c hc ht => ?_, fun id h h' hid hid' => ?_, fun h hh => ?_⟩
  · obtain ⟨c₂, hc₂, hid₂, -⟩ := ha.record_drained hrest hc
    have hborn : h ∉ p₂.roster.stillborn := fun hin =>
      ht ((tree?_of_get? hc).symm.trans (ha.redrawn₂.stillborn h hin))
    obtain ⟨c', hc', hid, -⟩ := ha.record_final hc₂ hborn
    refine ⟨c', hc', hid.trans hid₂, ?_⟩
    have hkept := ha.brought.kept h (by rwa [tree?_of_get? hc])
    rwa [tree?_of_get? hc'] at hkept
  · -- both have the id when the queue is drained
    obtain ⟨c, hc, rfl, hlive⟩ := (hrest.arena.ids_iff id h).mp hid
    obtain ⟨c₂, hc₂, hid₂, hret₂⟩ := ha.record_drained hrest hc
    have hmine := (ha.redrawn₂.arena.ids_iff c.id h).mpr ⟨c₂, hc₂, hid₂, hret₂.trans hlive⟩
    obtain ⟨d, hd, hdid, hdlive⟩ := (harena.ids_iff c.id h').mp hid'
    have hother : ∃ d₂, p₂.roster.get? h' = some d₂ ∧ d₂.id = c.id ∧ d₂.retired = false := by
      cases fate ha.redrawn₂ ha.compared h' with
      | dropped hnone _ =>
          rw [hnone] at hd
          cases hd
      | untouched _ hsame _ => exact ⟨d, hsame.symm.trans hd, hdid, hdlive⟩
      | @redrawn e t _ _ he _ hnew =>
          obtain rfl := Option.some.inj (hnew.symm.trans hd)
          exact ⟨e, he, hdid, hdlive⟩
    have hother := (ha.redrawn₂.arena.ids_iff c.id h').mpr hother
    exact Option.some.inj (hother.symm.trans hmine)
  · rw [retired_renderAll hrest hall]
    exact hh

/-- **Every command holds on to what has a tree, until it tells the client.** -/
theorem untold_of_exec {host : Host} {root : Template} (hv : Reachable host root v)
    (hnodup : v.roster.retired.Nodup) (hx : v.exec cmd = some (answer, w)) :
    ∃ r, Untold v cmd r ∧ Told r answer w.roster := by
  have hs := standing_reachable hv
  have hrest := hs.resting
  have hpacked := (stocked_reachable hv).packed
  have hafter := (resting_exec hrest hx).arena
  -- when the client is not told, what has come into use is in use afterwards
  have hbirths (h : Handle) (hunused : v.roster.Unused h) (hin : w.roster.get? h ≠ none) :
      h ∈ v.births cmd :=
    mem_births hrest hpacked hx hunused (mt hafter.unused_iff.mp hin)
  have hquiet (hret : w.roster.retired.Nodup) (hholds : Holds v.roster w.roster)
      (htells : answer.tells = false) (hgone : answer.gone = []) :
      ∃ r, Untold v cmd r ∧ Told r answer w.roster :=
    ⟨w.roster, ⟨hafter, hret, hholds, hbirths⟩, .nothing htells hgone rfl⟩
  have hgrows (hg : Grows v.roster w.roster) (htells : answer.tells = false)
      (hgone : answer.gone = []) : ∃ r, Untold v cmd r ∧ Told r answer w.roster :=
    hquiet (hg.retired ▸ hnodup) (.of_grows hrest.arena hafter hg) htells hgone
  cases effect_of_exec hx with
  | mount id kind props unsent =>
      have hedit : Edit v.host.kinds (fun _ => True) v.roster
          (v.roster.refer v.host.kinds id kind props none).2 :=
        edit_refer v.roster id kind none fun _ _ => trivial
      exact hgrows (.of_edit hrest.arena.spare_empty hedit) rfl rfl
  | unmount id unsent =>
      refine hquiet ?_ ?_ rfl rfl
      · change (v.roster.unmount id).2.retired.Nodup
        rw [unmount_snd]
        exact hrest.arena.nodup_retire hnodup id
      · change Holds v.roster (v.roster.unmount id).2
        rw [unmount_snd]
        exact (Holds.refl v.roster).retireAll [id]
  | deliver id props unsent =>
      have hedit : Edit v.host.kinds (fun _ => True) v.roster
          (v.roster.deliver v.host.kinds id props).2 :=
        edit_deliver hrest.undo id fun _ _ => trivial
      exact hgrows (.of_edit hrest.arena.spare_empty hedit) rfl rfl
  | @render fuel result _ hr =>
      cases result with
      | error e =>
          obtain rfl := render_error hrest hr
          exact hgrows (.refl _) rfl rfl
      | ok outcome =>
          obtain ⟨done, p, hall, rfl, rfl⟩ := render_ok hr
          have harena := arena_renderAll hrest hall
          have hretired := retired_renderAll hrest hall
          refine ⟨_, ⟨(harena.closePass _).arena, ?_, (holds_renderAll hs hall).closePass _, ?_⟩,
            .all rfl rfl rfl⟩
          · exact harena.nodup_closePass (hretired ▸ hnodup) _
          · intro h hunused hin
            unfold births
            dsimp only
            rw [hall]
            exact (bore_renderAll hrest hpacked hall).records h
              (mt ((sameUse_closePass p.roster _).records h).mpr hin) hunused
  | close =>
      refine ⟨v.roster.unmountEach.2, ⟨hrest.unmountEach.arena,
        hrest.arena.nodup_retireAll hnodup _, (Holds.refl v.roster).retireAll _, ?_⟩,
        .all rfl rfl rfl⟩
      intro h hunused hin
      have hsame := (sameUse_retireAll v.roster.ids.keys v.roster).records h
      exact absurd (hrest.arena.unused_iff.mp hunused) (mt hsame.mpr hin)
  | _ => exact hgrows (.refl v.roster) rfl rfl

/-- **Nothing waits twice to be told.** -/
theorem nodup_reachable {host : Host} {root : Template} (hv : Reachable host root v) :
    v.roster.retired.Nodup := by
  induction hv with
  | start => exact List.nodup_nil
  | step hv hx ih =>
      obtain ⟨r, hr, htold⟩ := untold_of_exec hv ih hx
      cases htold with
      | all _ _ heq =>
          rw [heq]
          exact List.nodup_nil
      | nothing _ _ heq =>
          rw [heq]
          exact hr.nodup

/-! ## One command -/

/-- How it is with a handle when the component that had it has left the view: the client was told of
it, or is to be told. -/
def Ended (h : Handle) (answer : Answer) (r : Roster) : Prop :=
  answer.gone.count h = answer.tells.toNat ∧
    if answer.tells then r.Unused h else h ∈ r.retired

section Told

variable {r r' : Roster} (hr : r.Arena) (ht : Told r answer r')
include hr ht

/-- Of what is retired the client is told once, as soon as it is told of anything. -/
theorem Told.of_retired (hnodup : r.retired.Nodup) (hh : h ∈ r.retired) :
    Ended h answer r' := by
  unfold Ended
  cases ht with
  | all htells hgone heq =>
      rw [hgone, count_tell, htells, heq, hnodup.count, if_pos hh]
      refine ⟨rfl, hr.reclaim_tell.unused_iff.mpr ?_⟩
      rw [get?_reclaim_tell, if_pos hh]
  | nothing htells hgone heq =>
      rw [hgone, htells, heq]
      exact ⟨rfl, hh⟩

/-- The client is not told of what is not in use. -/
theorem Told.of_unused (hh : r.Unused h) : answer.gone.count h = 0 ∧ r'.Unused h := by
  cases ht with
  | all htells hgone heq =>
      rw [hgone, count_tell, heq]
      refine ⟨List.count_eq_zero_of_not_mem hh.2, hr.reclaim_tell.unused_iff.mpr ?_⟩
      rw [get?_reclaim_tell, if_neg hh.2]
      exact hr.unused_iff.mp hh
  | nothing htells hgone heq =>
      rw [hgone, heq]
      exact ⟨rfl, hh⟩

omit hr in
theorem Told.handle? (id : String) : r'.handle? id = r.handle? id := by
  cases ht with
  | all _ _ heq => rw [heq, handle?_reclaim_tell]
  | nothing _ _ heq => rw [heq]

/-- The client is told of nothing that is live. -/
theorem Told.not_live (hin : h ∈ answer.gone) : ∀ id, r'.handle? id ≠ some h := by
  cases ht with
  | all htells hgone heq =>
      rw [hgone, mem_tell] at hin
      rw [heq]
      refine (hr.reclaim_tell.unused_iff.mpr ?_).1
      rw [get?_reclaim_tell, if_pos hin]
  | nothing htells hgone heq =>
      rw [hgone] at hin
      cases hin

end Told

variable {host : Host} {root : Template}

/-- A handle in use is not given out. -/
theorem not_mem_births (hv : Reachable host root v) (hused : ¬v.roster.Unused h)
    (cmd : Command) : h ∉ v.births cmd := by
  intro hin
  obtain ⟨before, after, hsplit⟩ := List.append_of_mem hin
  have hturn := inTurn_births (resting_reachable hv) (stocked_reachable hv).packed cmd
  exact hused (hturn before h after hsplit).1.1

/-- What is not in use stays so, unless it is given out. -/
theorem unused_of_untold {r : Roster} (hr : Untold v cmd r) (hh : v.roster.Unused h)
    (hout : h ∉ v.births cmd) : r.Unused h :=
  hr.arena.unused_iff.mpr (Decidable.byContradiction fun hin => hout (hr.fresh h hh hin))

/-! ## Runs -/

/-- Whether a run gives a handle to a new component. -/
def givesOut (h : Handle) : View → List Command → Bool
  | _, [] => false
  | v, cmd :: cmds => (v.births cmd).contains h || (v.exec cmd).any fun x => givesOut h x.2 cmds

theorem givesOut_cons (hx : v.exec cmd = some (answer, w)) (cmds : List Command) :
    givesOut h v (cmd :: cmds) = false ↔ h ∉ v.births cmd ∧ givesOut h w cmds = false := by
  simp [givesOut, hx]

/-- Of a handle that is not in use the client is not told until it is given out. -/
theorem unused_run {cmds : List Command} {answers : List Answer} (hv : Reachable host root v)
    (hh : v.roster.Unused h) (hrun : v.run cmds = some (answers, w))
    (hout : givesOut h v cmds = false) :
    (answers.flatMap Answer.gone).count h = 0 ∧ w.roster.Unused h := by
  induction cmds generalizing v answers with
  | nil =>
      obtain ⟨rfl, rfl⟩ := Prod.mk.inj (Option.some.inj hrun)
      exact ⟨rfl, hh⟩
  | cons cmd cmds ih =>
      obtain ⟨answer, rest, v', hx, hrest, rfl⟩ := run_cons hrun
      obtain ⟨hbirths, hout⟩ := (givesOut_cons hx cmds).mp hout
      obtain ⟨r, hr, htold⟩ := untold_of_exec hv (nodup_reachable hv) hx
      obtain ⟨hcount, hunused⟩ := htold.of_unused hr.arena (unused_of_untold hr hh hbirths)
      obtain ⟨hcounts, hend⟩ := ih (hv.step hx) hunused hrest hout
      rw [List.flatMap_cons, List.count_append, hcount, hcounts]
      exact ⟨rfl, hend⟩

/-- What a run says of a handle, the first answer being the one to the command before it: the handle
is not given out before the client was told of it, which is as soon as it is told of anything; and
as long as the handle is not given out, nothing has it, and the client is told once. -/
structure ToldOnce (h : Handle) (v : View) (cmds : List Command) (answer : Answer)
    (answers : List Answer) (w : View) : Prop where
  /-- The handle is not given out before the client was told. -/
  kept : (∀ a ∈ (answer :: answers).dropLast, a.tells = false) → givesOut h v cmds = false
  /-- As long as it is not given out, nothing has it. -/
  free : givesOut h v cmds = false → ∀ id, w.roster.handle? id ≠ some h
  /-- As long as it is not given out, the client is told once, and as soon as it is told of
  anything. -/
  once : givesOut h v cmds = false →
    ((answer :: answers).flatMap Answer.gone).count h =
      if (answer :: answers).any Answer.tells then 1 else 0

/-- Once it was told, a handle is told again only when it has been given out again. -/
theorem toldOnce_of_unused {cmds : List Command} {answers : List Answer}
    (hv : Reachable host root v) (htells : answer.tells = true)
    (hcount : answer.gone.count h = 1) (hh : v.roster.Unused h)
    (hrun : v.run cmds = some (answers, w)) : ToldOnce h v cmds answer answers w where
  kept hsilent := by
    cases cmds with
    | nil => rfl
    | cons cmd cmds =>
        obtain ⟨next, rest, -, -, -, rfl⟩ := run_cons hrun
        rw [hsilent answer (by simp)] at htells
        cases htells
  free hout := (unused_run hv hh hrun hout).2.1
  once hout := by
    rw [List.flatMap_cons, List.count_append, hcount, (unused_run hv hh hrun hout).1,
      List.any_cons, htells, Bool.true_or, if_pos rfl]

/-- What is retired is told once, after an answer that tells nothing. -/
theorem toldOnce_of_retired {cmds : List Command} {answers : List Answer}
    (hv : Reachable host root v) (htells : answer.tells = false) (hcount : answer.gone.count h = 0)
    (hh : h ∈ v.roster.retired) (hrun : v.run cmds = some (answers, w)) :
    ToldOnce h v cmds answer answers w := by
  induction cmds generalizing v answer answers with
  | nil =>
      obtain ⟨rfl, rfl⟩ := Prod.mk.inj (Option.some.inj hrun)
      refine ⟨fun _ => rfl, fun _ => (resting_reachable hv).arena.not_live hh, fun _ => ?_⟩
      rw [List.flatMap_cons, List.flatMap_nil, List.append_nil, hcount, List.any_cons, htells]
      rfl
  | cons cmd cmds ih =>
      obtain ⟨next, rest, v', hx, hrest, rfl⟩ := run_cons hrun
      obtain ⟨r, hr, htold⟩ := untold_of_exec hv (nodup_reachable hv) hx
      obtain ⟨hcount', hh'⟩ := htold.of_retired hr.arena hr.nodup (hr.holds.retired h hh)
      have hrun' : ToldOnce h v' cmds next rest w := by
        cases hnext : next.tells with
        | true =>
            rw [hnext] at hcount' hh'
            exact toldOnce_of_unused (hv.step hx) hnext hcount' hh' hrest
        | false =>
            rw [hnext] at hcount' hh'
            exact ih (hv.step hx) hnext hcount' hh' hrest
      have hbirths : h ∉ v.births cmd := not_mem_births hv (fun hunused => hunused.2 hh) cmd
      refine ⟨fun hsilent => ?_, fun hout => ?_, fun hout => ?_⟩
      · refine (givesOut_cons hx cmds).mpr ⟨hbirths, hrun'.kept fun a ha => hsilent a ?_⟩
        rw [List.dropLast_cons_cons]
        exact List.mem_cons_of_mem answer ha
      · exact hrun'.free ((givesOut_cons hx cmds).mp hout).2
      · have hany : (answer :: next :: rest).any Answer.tells =
            (next :: rest).any Answer.tells := by
          rw [List.any_cons, htells, Bool.false_or]
        rw [List.flatMap_cons, List.count_append, hcount, Nat.zero_add, hany]
        exact hrun'.once ((givesOut_cons hx cmds).mp hout).2

/-- **When a component has left the view, its handle is told once.** -/
theorem toldOnce_of_ended {cmds : List Command} {answers : List Answer} (hv : Reachable host root v)
    (hh : Ended h answer v.roster) (hrun : v.run cmds = some (answers, w)) :
    ToldOnce h v cmds answer answers w := by
  obtain ⟨hcount, hh⟩ := hh
  cases htells : answer.tells with
  | true =>
      rw [htells] at hcount hh
      exact toldOnce_of_unused hv htells hcount hh hrun
  | false =>
      rw [htells] at hcount hh
      exact toldOnce_of_retired hv htells hcount hh hrun

/-! ## Lives -/

/-- A component has lived under an id and a handle ever since a message had a patch for it. -/
inductive Shown (host : Host) (root : Template) (id : String) (h : Handle) : View → Prop where
  | sent {v w : View} {fuel : Nat} {outcome : Outcome} {q : Patch} : Reachable host root v →
      v.render fuel = some (.ok outcome, w) → (h, q) ∈ outcome.message.components →
      w.roster.handle? id = some h → Shown host root id h w
  | lasts {v w : View} {cmd : Command} {answer : Answer} : Shown host root id h v →
      v.exec cmd = some (answer, w) → w.roster.handle? id = some h → Shown host root id h w

/-- What lives has the tree that it had before the client was told. -/
theorem Told.tree? {r r' : Roster} (ht : Told r answer r') (hr : r.Arena)
    (hid : r'.handle? id = some h) : r'.tree? h = r.tree? h := by
  cases ht with
  | all htells hgone heq =>
      rw [heq] at hid ⊢
      obtain ⟨c, hc, -⟩ := (hr.reclaim_tell.ids_iff id h).mp hid
      have hget := get?_reclaim_tell r h
      split at hget
      · rw [hc] at hget
        cases hget
      · unfold Roster.tree?
        rw [hget]
  | nothing htells hgone heq => rw [heq]

namespace Shown

theorem reachable (hs : Shown host root id h v) : Reachable host root v := by
  induction hs with
  | @sent v w fuel outcome _ hv hr _ _ =>
      have hx : v.exec (.render fuel) = some (.rendered (.ok outcome) w.html, w) := by
        rw [exec, hr]
        rfl
      exact hv.step hx
  | lasts _ hx _ ih => exact ih.step hx

theorem tree (hs : Shown host root id h v) :
    v.roster.handle? id = some h ∧ v.roster.tree? h ≠ none := by
  induction hs with
  | @sent v w fuel outcome q hv hr hq hid =>
      refine ⟨hid, ?_⟩
      obtain ⟨done, p, hall, rfl, rfl⟩ := render_ok hr
      obtain ⟨hq, hkept⟩ := List.mem_filter.mp hq
      obtain ⟨t, ht, -⟩ := ((standing_reachable hv).renderAll hall).1.sent h q hq
      have hgone : h ∉ (v.settle v.streams.plans done p).1.message.gone := of_decide_eq_true hkept
      rw [tree?_settle, if_neg hgone, ht]
      exact Option.some_ne_none t
  | @lasts v w cmd answer hs hx hid ih =>
      refine ⟨hid, ?_⟩
      obtain ⟨hold, htree⟩ := ih
      obtain ⟨r, hr, htold⟩ := untold_of_exec hs.reachable (nodup_reachable hs.reachable) hx
      rw [htold.tree? hr.arena hid]
      obtain ⟨c, hc, -⟩ := ((resting_reachable hs.reachable).arena.ids_iff id h).mp hold
      obtain ⟨c', hc', -, htree'⟩ := hr.holds.record h c hc (by rwa [tree?_of_get? hc] at htree)
      rwa [tree?_of_get? hc']

end Shown

/-- **What leaves the view is told once**, and its handle is not given out before. An answer lists
no handle of a component that is live; a live component keeps its handle, which goes to no other;
and when one leaves that the client was sent a patch for, then whatever run comes next, the client
is told of its handle in the answer by which the component left if that tells anything, and else in
the next answer that does. -/
theorem told_reachable (hv : Reachable host root v) (hx : v.exec cmd = some (answer, w)) :
    (∀ k ∈ answer.gone, ∀ id, w.roster.handle? id ≠ some k) ∧
      ∀ id h, v.roster.handle? id = some h →
        (∀ h', w.roster.handle? id = some h' → h' = h) ∧ h ∉ v.births cmd ∧
          (Shown host root id h v → w.roster.handle? id = none →
            ∀ cmds answers v', w.run cmds = some (answers, v') →
              ToldOnce h w cmds answer answers v') := by
  obtain ⟨r, hr, htold⟩ := untold_of_exec hv (nodup_reachable hv) hx
  have harena := (resting_reachable hv).arena
  refine ⟨fun k hk => htold.not_live hr.arena hk, fun id h hid => ⟨fun h' hid' => ?_, ?_, ?_⟩⟩
  · exact hr.holds.listed id h h' hid (htold.handle? id ▸ hid')
  · exact not_mem_births hv (fun hunused => hunused.1 id hid) cmd
  · intro hshown hgone cmds answers v' hrun
    have hretired := hr.holds.mem_retired harena hr.arena hid hshown.tree.2
      (htold.handle? id ▸ hgone)
    exact toldOnce_of_ended (hv.step hx) (htold.of_retired hr.arena hr.nodup hretired) hrun

/-- A page that shows whether it is broken, as long as it is not. -/
def brittlePage : Template :=
  .hole "" (.value (Reads.ofTexts ["broken"]) fun s => (s.get "broken").bind fun v =>
    if v.same (.bool true) then .error (.failed "broken") else .ok v) (.text "")

/-- A page on which nothing is broken, with a note that a message has put there. -/
def noted : List Command :=
  [.write (.set "broken" (.bool false)), .mount "note" ⟨"note", "note"⟩ []]

/-- Nothing goes out while the page is broken, though another note is mounted. -/
def mended : List Command :=
  [.write (.set "broken" (.bool true)), .render 2, .mount "other" ⟨"note", "note"⟩ [],
    .write (.set "broken" (.bool false)), .render 2]

/-- The note is taken out, a render fails, and the next one tells the client, while another note
that was mounted in between has another handle. -/
theorem noted_told : ∃ v w answer v' answers, Shown panelHost brittlePage "note" 0 v ∧
    v.exec (.unmount "note") = some (answer, w) ∧ w.roster.handle? "note" = none ∧
    w.run mended = some (answers, v') ∧ v'.roster.handle? "other" = some 1 ∧
    ((answer :: answers).map Answer.tells) = [false, false, false, false, false, true] ∧
    ToldOnce 0 w mended answer answers v' := by
  have hgood : ((ofTemplate panelHost brittlePage).run noted).any (fun x =>
      (x.2.render 2).any fun y => y.1.toOption.any fun o =>
        o.message.components.any (fun e => decide (e.1 = 0)) &&
          (decide (y.2.roster.handle? "note" = some 0) &&
            (y.2.exec (.unmount "note")).any fun z => (z.2.roster.handle? "note").isNone &&
              (z.2.run mended).any fun a => decide (a.2.roster.handle? "other" = some 1 ∧
                (z.1 :: a.1).map Answer.tells = [false, false, false, false, false, true]))) =
      true := by decide +kernel
  obtain ⟨⟨earlier, u⟩, hrun, hgood⟩ := (Option.any_eq_true ..).mp hgood
  obtain ⟨⟨result, v⟩, hrender, hgood⟩ := (Option.any_eq_true ..).mp hgood
  obtain ⟨outcome, hok, hgood⟩ := (Option.any_eq_true ..).mp hgood
  obtain ⟨hsent, hgood⟩ := Bool.and_eq_true_iff.mp hgood
  obtain ⟨hid, hgood⟩ := Bool.and_eq_true_iff.mp hgood
  obtain ⟨⟨answer, w⟩, hx, hgood⟩ := (Option.any_eq_true ..).mp hgood
  obtain ⟨hgone, hgood⟩ := Bool.and_eq_true_iff.mp hgood
  obtain ⟨⟨answers, v'⟩, hmended, hgood⟩ := (Option.any_eq_true ..).mp hgood
  obtain ⟨hother, htells⟩ := of_decide_eq_true hgood
  obtain ⟨⟨k, q⟩, hq, hk⟩ := List.any_eq_true.mp hsent
  have hid := of_decide_eq_true hid
  have hgone := Option.isNone_iff_eq_none.mp hgone
  obtain rfl : k = 0 := of_decide_eq_true hk
  cases result with
  | error e => cases hok
  | ok o =>
      obtain rfl : o = outcome := Option.some.inj hok
      have hshown : Shown panelHost brittlePage "note" 0 v :=
        .sent (Reachable.start.run hrun) hrender hq hid
      have htold := ((told_reachable hshown.reachable hx).2 "note" 0 hid).2.2 hshown hgone
      exact ⟨v, w, answer, v', answers, hshown, hx, hgone, hmended, hother, htells,
        htold mended answers v' hmended⟩

end View

end ViewSync
