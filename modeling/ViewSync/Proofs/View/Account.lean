import ViewSync.Proofs.Roster.Drawings
import ViewSync.Proofs.Roster.Patches
import ViewSync.Proofs.View.FailedRender

/-!
# The account of a pass

A pass that goes well, taken apart: the root is rendered, then components are drawn until the queue
is empty, those that are stillborn are dropped, and what was drawn is compared with what was there
before.
-/

namespace ViewSync.View

open Roster

/-- The components that a pass draws, in order. -/
def drawings (v : View) (fuel : Nat) : List Drawing :=
  match (Pass.template v.host (Scope.ofAssigns v.assigns) v.root v.sent).run v.opened with
  | (.ok _, p) => Roster.drawings v.host fuel p
  | (.error _, _) => []

/-- How a pass went: `root` is the tree that the root was rendered to, `p₁` and `p₂` are the states
of the pass after that and after the last drawing, and `rs` and `fs` are what the root referred to
and took. -/
structure Account (S : Shape → Prop) (v : View) (fuel : Nat) (done : Rendering) (p : Pass)
    (root : Tree) (rs : Refs) (fs : List (String × Stream.Flush)) (p₁ p₂ : Pass)
    (former : FormerTrees) : Prop where
  /-- Every kind renders templates of such a shape. -/
  kinds : ∀ key a, S ((v.host.kinds key).render a).shape
  /-- The root is rendered first. -/
  run : (Pass.template v.host (Scope.ofAssigns v.assigns) v.root v.sent).run v.opened =
    (.ok root, p₁)
  /-- Rendering the root takes this course. -/
  course : Pass.Course v.host.kinds v.opened rs fs p₁
  /-- The tree has what was referred to and taken. -/
  tells : Pass.Tells root.refs root.edits rs fs
  /-- It has the shape of the root. -/
  shape : root.shape = v.root.shape
  /-- Its fillings go into the holes. -/
  fits : root.Fits
  /-- After that, the trees of components go together with those from before. -/
  redrawn : Redrawn S v.roster none p₁.roster []
  /-- So they do after the last drawing. -/
  redrawn₂ : Redrawn S v.roster none p₂.roster former
  /-- The drawings lead from the one state to the other. -/
  drains : Drains v.host p₁ (v.drawings fuel) p₂ former
  /-- Then the queue is empty. -/
  drained : p₂.roster.queue = []
  /-- What is stillborn is dropped, and the trees are compared. -/
  compared : Compared p₂.roster.dropStillborn p.roster former done.components
  /-- Comparing leaves the ids alone. -/
  ids : p.roster.ids = p₂.roster.dropStillborn.ids
  /-- It leaves alone what is seen. -/
  seen : p.roster.seen = p₂.roster.dropStillborn.seen
  /-- It leaves alone what was drawn. -/
  drawn : p.roster.drawn = p₂.roster.dropStillborn.drawn
  /-- It leaves alone what is stillborn. -/
  stillborn : p.roster.stillborn = p₂.roster.stillborn
  /-- No flush is taken by it. -/
  flushes : p.flushes = p₂.flushes
  /-- No failure is noted by it. -/
  errors : p.errors = p₂.errors
  /-- The page is the tree of the root without what is stillborn. -/
  root_eq : done.root = root.blank p₂.roster.stillborn
  /-- The page is compared with the one that was sent. -/
  patch : Tree.patchFrom .nowhere v.sent done.root = .ok done.patch

variable {S : Shape → Prop} {v : View} {fuel : Nat} {done : Rendering} {p : Pass}

/-- Rendering the root leaves the trees of components alone. -/
theorem redrawn_root {root : Tree} {p₁ : Pass}
    (hkinds : ∀ key a, S ((v.host.kinds key).render a).shape)
    (hdrawn : Redrawn S v.roster none v.roster []) (hsent : ∀ t, v.sent = some t → t.Fits)
    (hrun : (Pass.template v.host (Scope.ofAssigns v.assigns) v.root v.sent).run v.opened =
      (.ok root, p₁)) :
    Redrawn S v.roster none p₁.roster [] ∧ root.shape = v.root.shape ∧ root.Fits := by
  have hopen : Redrawn S v.roster none v.roster.openPass [] :=
    ⟨hdrawn.arena.congr rfl rfl rfl rfl rfl, hdrawn.suits, hdrawn.waiting, hdrawn.kept,
      hdrawn.noted, hdrawn.stillborn, hdrawn.sorted⟩
  have hyields := Pass.yields_template ((Redrawn.steady v.roster hkinds).closed none [])
    (s := Scope.ofAssigns v.assigns) (t := v.root) (Scope.all_true _)
    (Template.makes_true _) v.sent v.opened ⟨fun _ _ _ _ _ => trivial, hopen⟩
  rw [hrun] at hyields
  obtain ⟨⟨-, hredrawn⟩, hres⟩ := hyields
  exact ⟨hredrawn, (hres root rfl).1, (hres root rfl).2 hsent⟩

/-- Every pass that goes well has its account. -/
theorem account_renderAll (hkinds : ∀ key a, S ((v.host.kinds key).render a).shape)
    (hdrawn : Redrawn S v.roster none v.roster []) (hsent : ∀ t, v.sent = some t → t.Fits)
    (h : v.renderAll fuel v.opened = some (.ok done, p)) :
    ∃ root rs fs p₁ p₂ former, Account S v fuel done p root rs fs p₁ p₂ former := by
  obtain ⟨root, p₁, hrun, hqueue, hdone, hpatch⟩ := renderAll_ok h
  obtain ⟨former, p₂, r, hd, hpatches, hp⟩ := renderQueue_ok hqueue
  obtain ⟨hredrawn, hshape, hfits⟩ := redrawn_root hkinds hdrawn hsent hrun
  obtain ⟨handles, fs, hcourse, htells⟩ := Pass.runs_template v.host
    (Scope.ofAssigns v.assigns) v.root hsent v.opened
  rw [hrun] at hcourse htells
  have hdrawings : v.drawings fuel = Roster.drawings v.host fuel p₁ := by
    unfold drawings
    rw [hrun]
  obtain ⟨hdrains, hempty⟩ := drains_drain .start hd
  rw [List.nil_append, ← hdrawings] at hdrains
  have hfinal := hdrains.redrawn hkinds hredrawn
  have hcompared := compared_patches (Keyed.nodup_keys hfinal.sorted) hpatches
  obtain ⟨slots, hrest⟩ := patches_rest former p₂.roster.dropStillborn
  rw [hpatches] at hrest
  change r = _ at hrest
  have hstillborn : p.roster.stillborn = p₂.roster.stillborn := by
    rw [hp]
    change r.stillborn = _
    rw [hrest]
    exact (dropStillborn_rest p₂.roster).1
  have hmarks : p.roster.ids = p₂.roster.dropStillborn.ids ∧
      p.roster.seen = p₂.roster.dropStillborn.seen ∧
      p.roster.drawn = p₂.roster.dropStillborn.drawn := by
    rw [hp]
    change r.ids = _ ∧ r.seen = _ ∧ r.drawn = _
    rw [hrest]
    exact ⟨rfl, rfl, rfl⟩
  obtain ⟨hids, hseen, hdrawn⟩ := hmarks
  refine ⟨root, handles, fs, p₁, p₂, former, hkinds, hrun, hcourse, htells root rfl, hshape, hfits,
    hredrawn, hfinal, hdrains, hempty, ?_, hids, hseen, hdrawn, hstillborn, ?_, ?_, ?_, hpatch⟩
  · rw [hp]
    exact ⟨hcompared.keys, hcompared.queue, hcompared.records, hcompared.complete,
      hcompared.sound⟩
  · rw [hp]
  · rw [hp]
  · rw [hdone, blankStillborn, hstillborn]

namespace Account

variable {p₁ p₂ : Pass} {root : Tree} {rs : Refs} {fs : List (String × Stream.Flush)}
variable {former : FormerTrees} {k : Handle} {c : Component}
variable (ha : Account S v fuel done p root rs fs p₁ p₂ former)
include ha

/-- The tree of a component when the queue is drained. -/
theorem tree?_drained (k : Handle) :
    p₂.roster.tree? k = (lastDrawn (v.drawings fuel) k).or (v.roster.tree? k) ∧
      (k ∈ former.map Prod.fst ↔ lastDrawn (v.drawings fuel) k ≠ none) := by
  rw [← ha.redrawn.kept k rfl, Keyed.mem_keys_iff_has, Keyed.has, Option.isSome_iff_ne_none]
  exact ha.drains.trees ha.kinds ha.redrawn k

/-- Every record from before the pass is there when the queue is drained. -/
theorem record_drained (hrest : v.roster.Resting) (hc : v.roster.get? k = some c) :
    ∃ c', p₂.roster.get? k = some c' ∧ c'.id = c.id ∧ c'.retired = c.retired := by
  have hclosed : Pass.Closed v.host.kinds (fun _ => True) _ :=
    closed_edit (I := fun r => r.Arena ∧ Grows v.roster r) (fun _ => trivial)
      fun r r' hr he => ⟨hr.1.edit he, hr.2.trans (.of_edit hr.1.spare_empty he)⟩
  have hopen : Grows v.roster v.opened.roster := .of_get? (fun _ => rfl) rfl
  obtain ⟨-, -, hgrows⟩ := ha.course.keeps hclosed
    ⟨fun _ _ _ _ _ => trivial, hrest.arena.congr rfl rfl rfl rfl rfl, hopen⟩
  obtain ⟨c₁, hc₁, hid, hret, -⟩ := hgrows.record k c hc
  obtain ⟨c₂, hc₂, hid', hret'⟩ := ha.drains.record ha.kinds ha.redrawn hc₁
  exact ⟨c₂, hc₂, hid'.trans hid, hret'.trans hret⟩

/-- A record is there to the end, unless it is dropped, with its last tree blanked if that was drawn
in the pass. -/
theorem record_final (hc : p₂.roster.get? k = some c) (hborn : k ∉ p₂.roster.stillborn) :
    ∃ c', p.roster.get? k = some c' ∧ c'.id = c.id ∧ c'.retired = c.retired ∧
      c'.tree = ((lastDrawn (v.drawings fuel) k).map (Tree.blank p.roster.stillborn)).or
        (v.roster.tree? k) := by
  obtain ⟨htree, hnoted⟩ := ha.tree?_drained k
  rw [tree?_of_get? hc] at htree
  obtain ⟨hstillborn, -, hget⟩ := dropStillborn_rest p₂.roster
  have hrecord := ha.compared.records k
  rw [hget, if_neg hborn, hstillborn, hc] at hrecord
  rw [ha.stillborn]
  cases hlast : lastDrawn (v.drawings fuel) k with
  | none =>
      have hout : k ∉ former.map Prod.fst := fun hin => hnoted.mp hin hlast
      rw [if_neg hout] at hrecord
      rw [hlast] at htree
      exact ⟨c, hrecord, rfl, rfl, htree⟩
  | some t =>
      have hin : k ∈ former.map Prod.fst := hnoted.mpr (by rw [hlast]; exact Option.some_ne_none t)
      rw [if_pos hin] at hrecord
      rw [hlast, Option.some_or] at htree
      refine ⟨_, hrecord, rfl, rfl, ?_⟩
      rw [blanked, htree]
      rfl

end Account

end ViewSync.View
