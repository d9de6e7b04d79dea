import ViewSync.Proofs.Patch.Handles
import ViewSync.Proofs.Roster.Allotment
import ViewSync.Proofs.Roster.Closing
import ViewSync.Proofs.Roster.Stillborn
import ViewSync.Proofs.View.Standing

/-!
# Components whose first rendering fails

A pass that goes well leaves no trace of a component that had no tree yet and failed in it. The page
and the trees of other components may have been rendered long before the failure, with slots that
point at the component. All of them are blanked before they are compared with what the client has,
so that there is empty text where the component would be, in the trees and in the patches.
-/

namespace ViewSync.View

open Roster

/-- The pass that is rendered next renders the root to a page, and is in some state afterwards. -/
def RendersRoot (v : View) (page : Tree) (p₁ : Pass) : Prop :=
  (Pass.template v.host (Scope.ofAssigns v.assigns) v.root v.sent).run v.opened = (.ok page, p₁)

/-- In the pass that is rendered next the turn of a component comes that has no tree yet, and
rendering it fails. -/
def FirstFails (v : View) (h : Handle) (c : Component) : Prop :=
  ∃ page p₁, v.RendersRoot page p₁ ∧ Roster.FirstFails v.host p₁ h c

/-- All that a pass has rendered and sent has empty text in the slots of some components. -/
structure Blanked (v v' : View) (fuel : Nat) (outcome : Outcome) (page : Tree)
    (dead : List Handle) : Prop where
  /-- The page is blank there. -/
  sent : v'.sent = some (page.blank dead)
  /-- The patch of the page leads to it. -/
  root : Tree.patchFrom .nowhere v.sent (page.blank dead) = .ok outcome.message.root
  /-- The trees that were drawn are blank there. -/
  trees : ∀ k t u, lastDrawn (v.drawings fuel) k = some t → v'.roster.tree? k = some u →
    u = t.blank dead
  /-- The patches of components lead to them. -/
  patches : ∀ k q, (k, q) ∈ outcome.message.components → ∃ t,
    lastDrawn (v.drawings fuel) k = some t ∧
      Tree.patchFrom .nowhere (v.roster.tree? k) (t.blank dead) = .ok q

/-- Nothing is left of a component after a pass. -/
structure Traceless (v v' : View) (fuel : Nat) (outcome : Outcome) (h : Handle) (c : Component) :
    Prop where
  /-- Its id is not in use. -/
  id : v'.roster.handle? c.id = none
  /-- It has no record. -/
  record : v'.roster.get? h = none
  /-- Its handle is to spare. -/
  spare : h ∈ v'.roster.spare
  /-- There is no patch for it. -/
  unsent : h ∉ outcome.message.components.map Prod.fst
  /-- The client is not told that it is gone. -/
  gone : h ∉ outcome.message.gone
  /-- Nor will it be. -/
  pending : h ∉ v'.roster.retired ∧ h ∉ v'.roster.told
  /-- No slot of the page points at it. -/
  page : ∀ t, v'.sent = some t → h ∉ t.handles
  /-- No slot of a tree that was drawn points at it. -/
  trees : ∀ k t, lastDrawn (v.drawings fuel) k ≠ none → v'.roster.tree? k = some t → h ∉ t.handles
  /-- Nor does the patch of the page. -/
  root : h ∉ outcome.message.root.handles
  /-- Nor do the patches of components. -/
  patches : ∀ e ∈ outcome.message.components, h ∉ e.2.handles

section Account

variable {S : Shape → Prop} {v : View} {fuel : Nat} {done : Rendering} {p p₁ p₂ : Pass}
variable {page : Tree} {rs : Refs} {fs : List (String × Stream.Flush)}
variable {former : FormerTrees} {h k : Handle} {c : Component} {t u : Tree} {q : Patch}
variable (ha : Account S v fuel done p page rs fs p₁ p₂ former)
include ha

/-- The queue is drained between the rendering of the root and the patches. -/
theorem Account.drain_eq (hall : v.renderAll fuel v.opened = some (.ok done, p)) :
    Roster.drain v.host fuel p₁ [] = some (.ok (), former, p₂) ∧
      p.roster.spare = p₂.roster.dropStillborn.spare := by
  obtain ⟨page', p₁', hrun, hqueue, -⟩ := renderAll_ok hall
  obtain ⟨-, rfl⟩ := Prod.mk.inj (ha.run.symm.trans hrun)
  obtain ⟨former', p₂', r, hd, hpatches, hp⟩ := renderQueue_ok hqueue
  obtain ⟨rest, hrest, -⟩ := ha.drains.rest hd
  rw [drain_nil v.host ha.drained] at hrest
  obtain ⟨rfl, rfl⟩ := Prod.mk.inj (Prod.mk.inj (Option.some.inj hrest)).2
  refine ⟨hd, ?_⟩
  obtain ⟨slots, hslots⟩ := patches_rest former p₂.roster.dropStillborn
  rw [hpatches] at hslots
  change r = _ at hslots
  rw [hp]
  change r.spare = _
  rw [hslots]

/-- Those components are stillborn whose first rendering failed. -/
theorem Account.mem_stillborn_iff (hrest : v.roster.Resting)
    (hall : v.renderAll fuel v.opened = some (.ok done, p)) :
    h ∈ p₂.roster.stillborn ↔ ∃ c, v.FirstFails h c := by
  have hroot := (Pass.yields_template (closed_stillborn v.host.kinds [])
    (s := Scope.ofAssigns v.assigns) (t := v.root) (Scope.all_true _) (Template.makes_true _)
    v.sent v.opened hrest.stillborn).1
  rw [ha.run] at hroot
  rw [Roster.mem_stillborn_iff hroot (ha.drain_eq hall).1]
  refine exists_congr fun c => ⟨fun hf => ⟨page, p₁, ha.run, hf⟩, ?_⟩
  intro ⟨page', p₁', hrun, hf⟩
  obtain ⟨-, rfl⟩ := Prod.mk.inj (ha.run.symm.trans hrun)
  exact hf

/-- A record at the end of the queue is one from before components were dropped. -/
theorem Account.record_of_final (hc : p.roster.get? k = some c) :
    k ∉ p₂.roster.stillborn ∧ ∃ c', p₂.roster.get? k = some c' ∧ c'.id = c.id ∧
      c'.retired = c.retired := by
  obtain ⟨hstillborn, -, hget⟩ := dropStillborn_rest p₂.roster
  have hrecord := ha.compared.records k
  rw [hc, hget] at hrecord
  by_cases hborn : k ∈ p₂.roster.stillborn
  · simp [hborn] at hrecord
  · refine ⟨hborn, ?_⟩
    rw [if_neg hborn] at hrecord
    split at hrecord
    · obtain ⟨c', hc', rfl⟩ := Option.map_eq_some_iff.mp hrecord.symm
      exact ⟨c', hc', rfl, rfl⟩
    · exact ⟨c, hrecord.symm, rfl, rfl⟩

/-- A patch is that of the tree that the component was rendered to last, blanked. -/
theorem Account.patch_of_mem (hq : (k, q) ∈ done.components) :
    ∃ t, lastDrawn (v.drawings fuel) k = some t ∧
      Tree.patchFrom .nowhere (v.roster.tree? k) (t.blank p₂.roster.stillborn) = .ok q := by
  obtain ⟨hstillborn, -, hget⟩ := dropStillborn_rest p₂.roster
  obtain ⟨before, c, t, hformer, hc, ht, hpatch⟩ := ha.compared.sound k q hq
  rw [hget] at hc
  split at hc
  · cases hc
  · obtain ⟨htree, hnoted⟩ := ha.tree?_drained k
    obtain ⟨w, hw⟩ := Option.ne_none_iff_exists'.mp
      (hnoted.mp (List.mem_map_of_mem (f := Prod.fst) hformer))
    rw [hw, Option.some_or, tree?_of_get? hc, ht] at htree
    obtain rfl := Option.some.inj htree
    have hbefore := (ha.redrawn₂.noted k before
      (Keyed.get?_of_mem (Keyed.nodup_keys ha.redrawn₂.sorted) hformer)).1
    refine ⟨t, hw, ?_⟩
    rw [← hbefore, ← hstillborn]
    exact hpatch

/-- A tree that was drawn is blanked. -/
theorem Account.tree_of_drawn (ht : lastDrawn (v.drawings fuel) k = some t)
    (hu : p.roster.tree? k = some u) : u = t.blank p₂.roster.stillborn := by
  cases hc : p.roster.get? k with
  | none =>
      rw [tree?_of_none hc] at hu
      cases hu
  | some c =>
      obtain ⟨hborn, c₂, hc₂, -⟩ := ha.record_of_final hc
      obtain ⟨c', hc', -, -, htree⟩ := ha.record_final hc₂ hborn
      rw [tree?_of_get? hc', htree, ht, Option.map_some, Option.some_or, ha.stillborn] at hu
      exact (Option.some.inj hu).symm

/-- **The trees and patches of a pass are blank where something is stillborn.** -/
theorem Account.blanks (plans : List (String × Stream.Plan)) :
    v.Blanked (v.settle plans done p).2 fuel (v.settle plans done p).1 page
      p₂.roster.stillborn where
  sent := congrArg some ha.root_eq
  root := ha.root_eq ▸ ha.patch
  trees k t u ht hu := by
    rw [tree?_settle] at hu
    split at hu
    · cases hu
    · exact ha.tree_of_drawn ht hu
  patches k q hq := ha.patch_of_mem (List.mem_filter.mp hq).1

/-- **A component whose first rendering failed leaves no trace.** -/
theorem Account.traceless (hrest : v.roster.Resting)
    (hall : v.renderAll fuel v.opened = some (.ok done, p)) (hf : v.FirstFails h c)
    (plans : List (String × Stream.Plan)) :
    v.Traceless (v.settle plans done p).2 fuel (v.settle plans done p).1 h c := by
  have hborn : h ∈ p₂.roster.stillborn := (ha.mem_stillborn_iff hrest hall).mpr ⟨c, hf⟩
  have hblanked := ha.blanks plans
  have harena := arena_renderAll hrest hall
  have hclosed (holds : StreamEntry → Bool) : (p.roster.closePass holds).2.Resting :=
    harena.closePass holds
  -- when components are dropped, this one has its record
  obtain ⟨c₂, hc₂, hid, hlive⟩ : ∃ c', p₂.roster.get? h = some c' ∧ c'.id = c.id ∧
      c'.retired = false := by
    obtain ⟨page', p₁', hrun, -, ds, p', former', e, hturn⟩ := hf
    obtain ⟨-, rfl⟩ := Prod.mk.inj (ha.run.symm.trans hrun)
    exact hturn.record_drained (hturn.drains.redrawn ha.kinds ha.redrawn).arena (ha.drain_eq hall).1
  have hnone : p.roster.get? h = none :=
    Option.eq_none_iff_forall_ne_some.mpr fun d hd => (ha.record_of_final hd).1 hborn
  have hfinal : (v.settle plans done p).2.roster.get? h = none :=
    Option.eq_none_iff_forall_ne_some.mpr fun d hd =>
      Option.some_ne_none d (((get?_reclaim_close harena).mp hd).1.symm.trans hnone)
  have hafter : (v.settle plans done p).2.roster.Arena := (hclosed _).reclaim_tell.arena
  have hnot_retired {r : Roster} (hr : r.Arena) (hget : r.get? h = none) : h ∉ r.retired := by
    rw [hr.retired_iff, hget]
    intro hin
    obtain ⟨d, hd, -⟩ := hin
    cases hd
  have hblank (t : Tree) : h ∉ (t.blank p₂.roster.stillborn).handles := fun hin =>
    (Tree.mem_handles_blank.mp hin).2 hborn
  refine ⟨?_, hfinal, ?_, ?_, ?_, ⟨hnot_retired hafter hfinal, ?_⟩, ?_, ?_, ?_, ?_⟩
  · -- a record of this id would have been there beside the one that was dropped
    refine Option.eq_none_iff_forall_ne_some.mpr fun k hk => ?_
    obtain ⟨d, hd, hdid, -⟩ := (hafter.ids_iff c.id k).mp hk
    obtain ⟨hd', hdlive, -⟩ := (get?_reclaim_close harena).mp hd
    obtain ⟨hkborn, d₂, hd₂, hid₂, hret₂⟩ := ha.record_of_final hd'
    have hids := ha.redrawn₂.arena.ids_iff c.id
    have hk₂ := (hids k).mpr ⟨d₂, hd₂, hid₂.trans hdid, hret₂.trans hdlive⟩
    have hh₂ := (hids h).mpr ⟨c₂, hc₂, hid, hlive⟩
    exact hkborn (Option.some.inj (hk₂.symm.trans hh₂) ▸ hborn)
  · have hspare := (ha.drain_eq hall).2 ▸ mem_spare_drop_all hborn hc₂
    change h ∈ (p.roster.closePass _).2.tell.2.reclaim.spare
    rw [spare_reclaim_tell (hclosed _).arena.told, mem_insertAll, (sameUse_closePass _ _).spare]
    exact .inl hspare
  · intro hin
    obtain ⟨⟨k, q⟩, hq, rfl⟩ := List.mem_map.mp hin
    obtain ⟨before, d, t, -, hd, -⟩ := ha.compared.sound k q (List.mem_filter.mp hq).1
    rw [(dropStillborn_rest p₂.roster).2.2, if_pos hborn] at hd
    cases hd
  · intro hin
    refine hnot_retired (hclosed _).arena ?_ (mem_tell.mp hin)
    exact ((sameUse_closePass p.roster _).records h).mpr hnone
  · rw [hafter.told]
    exact List.not_mem_nil
  · intro t ht
    obtain rfl := Option.some.inj (hblanked.sent.symm.trans ht)
    exact hblank page
  · intro k u hdrawn hu
    obtain ⟨t, ht⟩ := Option.ne_none_iff_exists'.mp hdrawn
    rw [hblanked.trees k t u ht hu]
    exact hblank t
  · exact fun hin => hblank page (Tree.patchFrom_handles hblanked.root hin)
  · intro ⟨k, q⟩ hq hin
    obtain ⟨t, -, hpatch⟩ := hblanked.patches k q hq
    exact hblank t (Tree.patchFrom_handles hpatch hin)

end Account

/-- **A component whose first rendering fails leaves no trace.** After a pass that goes well its id
is nobody's, its handle is to spare, the client is told nothing of it, and nothing that was rendered
points at it: all slots that did are empty text, and no others are. -/
theorem traceless_of_firstFails {host : Host} {root : Template} {v v' : View} {fuel : Nat}
    {outcome : Outcome} (hv : Reachable host root v)
    (hr : v.render fuel = some (.ok outcome, v')) :
    ∃ page p₁ dead, v.RendersRoot page p₁ ∧ (∀ h, h ∈ dead ↔ ∃ c, v.FirstFails h c) ∧
      v.Blanked v' fuel outcome page dead ∧
      ∀ h c, v.FirstFails h c → v.Traceless v' fuel outcome h c := by
  have hstanding := standing_reachable hv
  obtain ⟨done, p, hall, rfl, rfl⟩ := render_ok hr
  obtain ⟨page, rs, fs, p₁, p₂, former, ha⟩ := hstanding.account hall
  refine ⟨page, p₁, p₂.roster.stillborn, ha.run, ?_, ha.blanks _, ?_⟩
  · exact fun h => ha.mem_stillborn_iff hstanding.resting hall
  · exact fun h c hf => ha.traceless hstanding.resting hall hf _

/-- A page with a panel, and with a note for each of two items. -/
def listedPage : Template :=
  .hole "<main>" (.component ⟨"panel", "panel"⟩ (fun _ => .ok "panel") fun _ => .ok [])
    (.hole "<ul>" (.loop (.paths []) (fun _ => .ok [.str "first", .str "second"]) "item"
        (.hole "<li>" (.component ⟨"note", "note"⟩ (fun _ => .ok "note") fun _ => .ok [])
          (.text "</li>")))
      (.text "</ul></main>"))

/-- The panel has the same note in it, and the note cannot be rendered. -/
def listedHost : Host :=
  ⟨fun key => Kind.ofTemplate (if key = "panel" then
      .hole "<div>" (.component ⟨"note", "note"⟩ (fun _ => .ok "note") fun _ => .ok [])
        (.text "</div>")
    else .hole "<i>" (.value (Reads.ofTexts ["label"]) fun s => s.get "label") (.text "</i>")), {}⟩

/-- The note, with handle 1, is in the page twice and in the panel when it fails. All of these slots
are blanked, in the tree of the panel too, which was rendered before. -/
theorem note_traceless : ∃ (v v' : View) (outcome : Outcome) (page t : Tree) (p₁ : Pass)
    (dead : List Handle) (c : Component), Reachable listedHost listedPage v ∧
    v.render 2 = some (.ok outcome, v') ∧ v.RendersRoot page p₁ ∧ page.handles = [0, 1, 1] ∧
    lastDrawn (v.drawings 2) 0 = some t ∧ t.handles = [1] ∧ v.FirstFails 1 c ∧
    v.Blanked v' 2 outcome page dead ∧ 1 ∈ dead ∧ v.Traceless v' 2 outcome 1 c := by
  have hgood : ((ofTemplate listedHost listedPage).render 2).any (fun x =>
      x.1.isOk && x.2.sent.any (·.handles = [0]) &&
      ((lastDrawn ((ofTemplate listedHost listedPage).drawings 2) 0).any (·.handles = [1]) &&
      ((Pass.template listedHost (Scope.ofAssigns Assigns.empty) listedPage none).run
        (ofTemplate listedHost listedPage).opened).1.toOption.any (·.handles = [0, 1, 1]))) =
      true := by
    decide +kernel
  obtain ⟨⟨answer, v'⟩, hr, hgood⟩ := (Option.any_eq_true ..).mp hgood
  simp only [Bool.and_eq_true, decide_eq_true_eq, Option.any_eq_true] at hgood
  obtain ⟨⟨hok, sent, hsent, hnone⟩, ⟨t, ht, hpanel⟩, page', hpage, hhandles⟩ := hgood
  cases answer with
  | error e => cases hok
  | ok outcome =>
      obtain ⟨page, p₁, dead, hrun, hdead, hblanked, htraceless⟩ :=
        traceless_of_firstFails (.start : Reachable listedHost listedPage _) hr
      -- the page is what the root was computed to above, and it is the note that was blanked in it
      obtain rfl : page = page' :=
        Option.some.inj ((congrArg (·.1.toOption) hrun).symm.trans hpage)
      obtain rfl := Option.some.inj (hsent.symm.trans hblanked.sent)
      have hin : 1 ∈ dead := by
        refine Decidable.byContradiction fun hout => ?_
        have hkept : 1 ∈ (page.blank dead).handles :=
          Tree.mem_handles_blank.mpr ⟨by simp [hhandles], hout⟩
        simp [hnone] at hkept
      obtain ⟨c, hf⟩ := (hdead 1).mp hin
      exact ⟨_, v', outcome, page, t, p₁, dead, c, .start, hr, hrun, hhandles, ht, hpanel, hf,
        hblanked, hin, htraceless 1 c hf⟩

end ViewSync.View
