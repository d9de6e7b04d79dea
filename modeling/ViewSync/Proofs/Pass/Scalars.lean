import ViewSync.Proofs.Pass.Rendering
import ViewSync.Proofs.Tree.Pieces

/-!
# The scalars that rendering leaves

A text that rendering fills a hole with is that of a value, or it is empty since a reference failed,
or it is one from before. So what is true of the texts of all values and of empty text is true of
all scalars in a tree, at every depth, if it is true of those in the tree before, whichever of them
are kept.
-/

namespace ViewSync

/-- A property of empty text and of what every value leaves in a page. -/
structure Host.Leaves (host : Host) (P : String → Prop) : Prop where
  /-- It holds of empty text. -/
  empty : P ""
  /-- It holds of the text of every value. -/
  value : ∀ v : Value, P (v.safeText host.config.escapeHtml)

namespace Pass

open ViewSync.Tree

variable {host : Host} {P : String → Prop}

/-! ## What is kept -/

theorem forall_scalars_keptFillings {t : Template} {before : Option Tree} {fs : List Filling}
    (h : keptFillings t before = .ok fs) (hb : ∀ b, before = some b → ∀ x ∈ b.scalars, P x) :
    ∀ x ∈ scalarsOfEach fs, P x := by
  rcases keptFillings_cases h with rfl | ⟨tree, hbefore, -, rfl⟩
  · exact List.forall_mem_nil _
  · rw [← scalars_eq]
    exact hb tree hbefore

/-! ## Rendering -/

/-- A component hole is filled with empty text if the reference fails, and with no text if not. -/
theorem scalars_component (hP : host.Leaves P) (owner : Option StreamEntry) (s : Scope)
    (kind : KindRef) (id : Callback String) (props : Callback Fields) :
    Yields (fun _ => True) (component host owner s kind id props)
      fun f => ∀ x ∈ scalarsOf f, P x := by
  refine .tryCatch (.bind (Q := fun _ => True) ?_ fun r _ => .pure (List.forall_mem_nil _))
    fun e => ?_
  · exact fun _ _ => ⟨trivial, fun _ _ => trivial⟩
  · split
    · exact .bind (Q := fun _ => False) (.throw e) fun _ h => h.elim
    · exact .bind (.modify fun _ _ => trivial) fun _ _ =>
        .pure (List.forall_mem_singleton.mpr hP.empty)

mutual

theorem scalars_holes (hP : host.Leaves P) (owner : Option StreamEntry) (s : Scope) :
    ∀ (t : Template) (before : List Filling), (∀ x ∈ scalarsOfEach before, P x) →
      Yields (fun _ => True) (holes host owner s t before) fun fs => ∀ x ∈ scalarsOfEach fs, P x
  | .text _, before, _ => by
      unfold holes
      exact .pure (List.forall_mem_nil _)
  | .hole _ h rest, before, hb => by
      -- fillings from before are lined up with the holes one by one
      have hlined : (∀ f, before.head? = some f → ∀ x ∈ scalarsOf f, P x) ∧
          ∀ x ∈ scalarsOfEach before.tail, P x := by
        cases before with
        | nil => exact ⟨nofun, hb⟩
        | cons b bs =>
            obtain ⟨hone, hrest⟩ := List.forall_mem_append.mp hb
            refine ⟨fun f hf => ?_, hrest⟩
            obtain rfl := Option.some.inj hf
            exact hone
      unfold holes
      refine .bind (scalars_hole hP owner s h before.head? hlined.1) fun f hf => ?_
      refine .bind (scalars_holes hP owner s rest before.tail hlined.2) fun fs hfs => ?_
      exact .pure (List.forall_mem_append.mpr ⟨hf, hfs⟩)

theorem scalars_hole (hP : host.Leaves P) (owner : Option StreamEntry) (s : Scope) :
    ∀ (h : Hole) (before : Option Filling), (∀ f, before = some f → ∀ x ∈ scalarsOf f, P x) →
      Yields (fun _ => True) (hole host owner s h before) fun f => ∀ x ∈ scalarsOf f, P x
  | .value reads eval, before, hb => by
      unfold hole
      split
      · next text hkept => exact .pure (hb _ (of_keptText hkept).1)
      · exact .ofExcept_bind fun v _ => .pure (List.forall_mem_singleton.mpr (hP.value v))
  | .choice reads choose branches, before, hb => by
      unfold hole
      refine .ofExcept_bind fun b _ => ?_
      split
      · exact .pure (List.forall_mem_nil _)
      · next i _ =>
          refine .bind (scalars_branch hP owner s branches i fun t ht => ?_) fun t ht => .pure ht
          exact hb _ (treeOfBranch_some ht)
  | .loop reads items binding body, before, hb => by
      unfold hole
      split
      · next entries hkept =>
          refine .bind (.forM entries fun t _ => .modify fun _ _ => trivial) fun _ _ => ?_
          exact .pure (hb _ (of_keptEntries hkept).1)
      · refine .ofExcept_bind fun values _ => ?_
        refine .bind (.mapM (Q := fun t => ∀ x ∈ scalarsOfEach t.fillings, P x) values
          fun v _ => ?_) fun entries hentries => .pure (forall_scalarsOfTrees.mpr hentries.2)
        refine .bind ?_ fun fs hfs => .pure hfs
        exact scalars_holes hP owner (s.bind binding v) body [] (List.forall_mem_nil _)
  | .stream name binding body, before, _ => by
      unfold hole
      refine .bind (.modifyGet (Q := fun _ => True) fun _ _ => ⟨trivial, trivial⟩) fun o _ => ?_
      split
      · exact .pure (List.forall_mem_nil _)
      · next flush =>
          refine .bind (.mapM (Q := fun t => ∀ x ∈ scalarsOfEach t.fillings, P x) flush.inserts
            fun i _ => ?_) fun entries hentries => .pure (forall_scalarsOfTrees.mpr hentries.2)
          refine .bind (.modify fun _ _ => trivial) fun _ _ => ?_
          refine .bind ?_ fun fs hfs => .pure hfs
          exact scalars_holes hP _ _ body [] (List.forall_mem_nil _)
  | .component kind id props, before, _ => by
      unfold hole
      exact scalars_component hP owner s kind id props

theorem scalars_branch (hP : host.Leaves P) (owner : Option StreamEntry) (s : Scope)
    {before : Option Tree} {chosen count : Nat} : ∀ (bs : Branches) (n : Nat),
      (∀ b, before = some b → ∀ x ∈ b.scalars, P x) →
      Yields (fun _ => True) (branch host owner s before chosen count bs n)
        fun t => ∀ x ∈ t.scalars, P x
  | .none, n, _ => by
      unfold branch
      exact .throw _
  | .more t rest, 0, hb => by
      unfold branch
      refine .ofExcept_bind fun kept hkept => ?_
      refine .bind (scalars_holes hP owner s t kept ?_) fun fs hfs => .pure hfs
      exact forall_scalars_keptFillings hkept hb
  | .more t rest, n + 1, hb => by
      unfold branch
      exact scalars_branch hP owner s rest n hb

end

/-- **What every value leaves in a page is all that rendering adds to a tree**, but for empty
text. -/
theorem forall_scalars_template (hP : host.Leaves P) {s : Scope} {t : Template}
    {before : Option Tree} {p : Pass} {tree : Tree}
    (h : ((template host s t before).run p).1 = .ok tree)
    (hb : ∀ b, before = some b → ∀ x ∈ b.scalars, P x) : ∀ x ∈ tree.scalars, P x := by
  have hyields : Yields (fun _ => True) (template host s t before)
      fun tree => ∀ x ∈ tree.scalars, P x := by
    refine .ofExcept_bind fun kept hkept => ?_
    refine .bind (scalars_holes hP none s t kept ?_) fun fs hfs => .pure hfs
    exact forall_scalars_keptFillings hkept hb
  exact (hyields p trivial).2 tree h

end Pass

end ViewSync
