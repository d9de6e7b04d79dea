import ViewSync.Proofs.Patch.Application
import ViewSync.Proofs.View.Account

/-!
# What a pass brings about

A pass that goes well: every live component has a tree, each tree that is not as it was has its
patch among those that are sent unless there is nothing to say, and the patch of the root leads from
the tree that was sent last to the new one. In a view without streams, nothing to say means that the
content is the same.
-/

namespace ViewSync

namespace View

open Roster

variable {S : Shape → Prop}

/-- No template of a view has a stream in it. -/
def StreamFree (host : Host) (root : Template) : Prop :=
  root.shape.StreamFree ∧ ∀ key a, ((host.kinds key).render a).shape.StreamFree

/-- A tree that fits its shape, in which there is no stream. -/
abbrev Sendable (t : Tree) : Prop := Suits Shape.StreamFree t

/-! ## What a pass brings about -/

/-- How the roster after a pass that went well, and the patches of components, go together with the
roster before. -/
structure Brought (S : Shape → Prop) (r₀ r : Roster) (ps : Keyed Handle Patch) : Prop where
  /-- Nothing is queued. -/
  queue : r.queue = []
  /-- Every tree is of such a shape, and fits. -/
  suits : ∀ h t, r.tree? h = some t → Suits S t
  /-- Every live component has a tree. -/
  drawn : ∀ h c, r.get? h = some c → c.retired = false → c.tree ≠ none
  /-- A component that had a tree has one. -/
  kept : ∀ h, r₀.tree? h ≠ none → r.tree? h ≠ none
  /-- No component has two patches. -/
  keys : (ps.map Prod.fst).Nodup
  /-- A patch takes the tree from before to the one from after. -/
  sent : ∀ h q, (h, q) ∈ ps →
    ∃ t, r.tree? h = some t ∧ Tree.patchFrom .nowhere (r₀.tree? h) t = .ok q
  /-- A component without a patch has the same tree, or one that there is nothing to say of. -/
  quiet : ∀ h, h ∉ ps.map Prod.fst → r.tree? h = r₀.tree? h ∨
    ∃ t q, r.tree? h = some t ∧ Tree.patchFrom .nowhere (r₀.tree? h) t = .ok q ∧ q.isEmpty = true

/-- A former tree and the tree after, whether it was compared with it or not. -/
theorem content_eq_of_isEmpty {old : Option Tree} {new : Tree} {q : Patch} (hnew : Sendable new)
    (hold : ∀ t, old = some t → t.Fits) (hq : Tree.patchFrom .nowhere old new = .ok q)
    (hempty : q.isEmpty = true) : old.map Tree.content = some new.content := by
  have happly := Tree.applyTo_patchFrom hnew.2 hold hnew.1 hq
  cases q with
  | replace c => cases hempty
  | update changes =>
      obtain rfl : changes = [] := List.isEmpty_iff.mp hempty
      cases old with
      | none => cases happly
      | some t =>
          obtain ⟨s, fs⟩ := t
          exact happly

/-- Without streams, what is not sent has the content that it had. -/
theorem Brought.unsent {r₀ r : Roster} {ps : Keyed Handle Patch}
    (hb : Brought Shape.StreamFree r₀ r ps) (hfits : ∀ h t, r₀.tree? h = some t → t.Fits)
    {h : Handle} (hh : h ∉ ps.map Prod.fst) :
    (r.tree? h).map Tree.content = (r₀.tree? h).map Tree.content := by
  rcases hb.quiet h hh with hsame | ⟨t, q, ht, hq, hempty⟩
  · rw [hsame]
  · rw [content_eq_of_isEmpty (hb.suits h t ht) (hfits h) hq hempty, ht]
    rfl

/-- What the account of a pass says of the trees. -/
theorem Account.brought {v : View} {fuel : Nat} {done : Rendering} {p p₁ p₂ : Pass} {root : Tree}
    {rs : Refs} {fs : List (String × Stream.Flush)} {former : FormerTrees}
    (ha : Account S v fuel done p root rs fs p₁ p₂ former) :
    Brought S v.roster p.roster done.components := by
  obtain ⟨hstillborn₁, hqueue₁, hget₁⟩ := dropStillborn_rest p₂.roster
  have hnodup := Keyed.nodup_keys ha.redrawn₂.sorted
  have hfate := fate ha.redrawn₂ ha.compared
  refine ⟨?_, fun h t ht => ?_, fun h c hc hlive => ?_, fun h hold => ?_,
    hnodup.sublist ha.compared.keys, fun h q hmem => ?_, fun h hh => ?_⟩
  · exact (ha.compared.queue.trans hqueue₁).trans ha.drained
  · rcases hfate h with ⟨hnone, -⟩ | ⟨-, hsame, -⟩ | ⟨-, -, hc, hct, hnew⟩
    · rw [tree?_of_none hnone] at ht
      cases ht
    · rw [tree?, hsame] at ht
      exact ha.redrawn₂.suits h t ht
    · rw [tree?_of_get? hnew] at ht
      obtain rfl := Option.some.inj ht
      exact (ha.redrawn₂.suits h _ ((tree?_of_get? hc).trans hct)).blank _
  · rcases hfate h with ⟨hnone, -⟩ | ⟨hborn, hsame, -⟩ | ⟨-, -, -, -, hnew⟩
    · rw [hnone] at hc
      cases hc
    · intro hnone
      rw [hsame] at hc
      -- nothing is waiting any more
      rcases ha.redrawn₂.waiting h c hc hlive hnone with hin | hin | hcur
      · rw [ha.drained] at hin
        cases hin
      · exact hborn hin
      · cases hcur
    · rw [hnew] at hc
      obtain rfl := Option.some.inj hc
      exact Option.some_ne_none _
  · rcases hfate h with ⟨-, hnone⟩ | ⟨-, hsame, hkept⟩ | ⟨-, -, -, -, hnew⟩
    · exact absurd hnone hold
    · have hnow : p.roster.tree? h = v.roster.tree? h := by rw [← hkept, tree?, hsame, ← tree?]
      rw [hnow]
      exact hold
    · rw [tree?_of_get? hnew]
      exact Option.some_ne_none _
  · obtain ⟨before, c, t, hmem', hc, hct, hpatch⟩ := ha.compared.sound h q hmem
    have hbefore := (ha.redrawn₂.noted h before (Keyed.get?_of_mem hnodup hmem')).1
    refine ⟨_, ?_, hbefore ▸ hpatch⟩
    have hin : h ∈ former.map Prod.fst := List.mem_map_of_mem (f := Prod.fst) hmem'
    rw [tree?, ha.compared.records h, if_pos hin, hc, Option.map_some, Option.bind_some, blanked,
      hct, Option.map_some]
  · rcases hfate h with ⟨hnone, hold⟩ | ⟨-, hsame, hold⟩ | ⟨hmem, hborn, hc, hct, hnew⟩
    · left
      rw [tree?_of_none hnone, hold]
    · left
      rw [← hold, tree?, hsame]
      rfl
    · rename_i c t
      have hc₁ : p₂.roster.dropStillborn.get? h = some c := by
        rw [hget₁, if_neg hborn, hc]
      obtain ⟨q, hq, hsent⟩ := ha.compared.complete h _ c t hmem hc₁ hct
      rw [hstillborn₁] at hq
      rcases hsent with hempty | hmem'
      · exact .inr ⟨_, q, tree?_of_get? hnew, hq, hempty⟩
      · -- a patch that is not empty would have been sent
        exact absurd (List.mem_map_of_mem (f := Prod.fst) hmem') hh

end View

end ViewSync
