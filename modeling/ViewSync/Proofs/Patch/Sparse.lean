import ViewSync.Proofs.Patch.Kept
import ViewSync.Proofs.Tree.Still

/-!
# Patches say what differs, and nothing else

Two trees of one shape are compared hole by hole. A hole is mentioned just if there is something
else in it now, where it does not count whether a component was rendered anew, nor what a stream has
for the client. What is said of it is either all of its new content, which happens where nothing of
the old content is of use, or changes inside of it; these are never none, and they are of the same
kind.

The predicate goes along the fillings of both trees and the changes at once, so that it leaves no
choice of what a patch mentions. The induction is on the new tree, as for the comparison.

A list that was kept is not compared. That makes no difference to the patch.
-/

namespace ViewSync

open ViewSync.Tree

/-! ## Trees that have nothing for the lists of a client -/

mutual

/-- No stream in a tree has anything for the client. -/
def Tree.Quiet : Tree → Prop
  | .mk _ fs => Tree.QuietEach fs

/-- No stream in a filling has anything for the client. -/
def Tree.QuietFilling : Filling → Prop
  | .text _ => True
  | .choice _ none => True
  | .choice _ (some t) => t.Quiet
  | .loop _ entries => Tree.QuietTrees entries
  | .stream _ edits entries => edits = none ∧ Tree.QuietTrees entries
  | .component _ _ => True

/-- No stream in some fillings has anything for the client. -/
def Tree.QuietEach : List Filling → Prop
  | [] => True
  | f :: fs => Tree.QuietFilling f ∧ Tree.QuietEach fs

/-- No stream in some trees has anything for the client. -/
def Tree.QuietTrees : List Tree → Prop
  | [] => True
  | t :: ts => t.Quiet ∧ Tree.QuietTrees ts

end

/-! ## What a patch says -/

namespace Filling

/-- The same is in two holes, whether or not a component was rendered anew, and whatever a stream
has for the client. -/
def Alike (f g : Filling) : Prop := stillOf f = stillOf g

end Filling

mutual

/-- What is said of a hole with `f` in it before and `g` in it now. -/
inductive SlotChange.Sparse : Filling → Filling → SlotChange → Prop where
  | whole {f g : Filling} : f.SentWhole g → SlotChange.Sparse f g (.set (slot g))
  /-- The same branch, of the same template. -/
  | tree {c : Option Nat} {s : Shape} {fs gs : List Filling} {changes : List (Nat × SlotChange)} :
      changes ≠ [] → Patch.SparseSlots 0 fs gs changes →
      SlotChange.Sparse (.choice c (some (.mk s fs))) (.choice c (some (.mk s gs))) (.tree changes)
  /-- Another number of entries. -/
  | rows {body : Shape} {before after : List Tree} : before.length ≠ after.length →
      SlotChange.Sparse (.loop body before) (.loop body after) (.rows (rows after))
  | rowChanges {body : Shape} {before after : List Tree} {changes : List (Nat × Patch)} :
      before.length = after.length → changes ≠ [] → Patch.SparseRows 0 before after changes →
      SlotChange.Sparse (.loop body before) (.loop body after) (.rowChanges changes)

/-- Changes that mention just the holes from a position on with something else in them now. -/
inductive Patch.SparseSlots : Nat → List Filling → List Filling → List (Nat × SlotChange) → Prop
    where
  | nil {i : Nat} : Patch.SparseSlots i [] [] []
  | skip {i : Nat} {f g : Filling} {fs gs : List Filling} {changes : List (Nat × SlotChange)} :
      f.Alike g → Patch.SparseSlots (i + 1) fs gs changes →
      Patch.SparseSlots i (f :: fs) (g :: gs) changes
  | say {i : Nat} {f g : Filling} {fs gs : List Filling} {change : SlotChange}
      {changes : List (Nat × SlotChange)} :
      ¬f.Alike g → change.Sparse f g → Patch.SparseSlots (i + 1) fs gs changes →
      Patch.SparseSlots i (f :: fs) (g :: gs) ((i, change) :: changes)

/-- Changes that mention just the rows from a position on with something else in them now. -/
inductive Patch.SparseRows : Nat → List Tree → List Tree → List (Nat × Patch) → Prop where
  | nil {i : Nat} : Patch.SparseRows i [] [] []
  | skip {i : Nat} {t u : Tree} {ts us : List Tree} {changes : List (Nat × Patch)} :
      t.still = u.still → Patch.SparseRows (i + 1) ts us changes →
      Patch.SparseRows i (t :: ts) (u :: us) changes
  | say {i : Nat} {s : Shape} {fs gs : List Filling} {ts us : List Tree}
      {slots : List (Nat × SlotChange)} {changes : List (Nat × Patch)} :
      slots ≠ [] → Patch.SparseSlots 0 fs gs slots → Patch.SparseRows (i + 1) ts us changes →
      Patch.SparseRows i (.mk s fs :: ts) (.mk s gs :: us) ((i, .update slots) :: changes)

end

namespace Patch

theorem SparseSlots.le_of_mem {i j : Nat} {fs gs : List Filling}
    {changes : List (Nat × SlotChange)} (h : SparseSlots i fs gs changes)
    (hj : j ∈ changes.map Prod.fst) : i ≤ j := by
  induction fs generalizing i gs changes with
  | nil =>
      cases h with
      | nil => cases hj
  | cons f fs ih =>
      cases h with
      | skip _ hrest => exact Nat.le_of_succ_le (ih hrest hj)
      | say _ _ hrest =>
          rcases List.mem_cons.mp hj with heq | hin
          · exact Nat.le_of_eq heq.symm
          · exact Nat.le_of_succ_le (ih hrest hin)

/-- The holes that are mentioned are those with something else in them. -/
theorem SparseSlots.mem_iff {i : Nat} {fs gs : List Filling} {changes : List (Nat × SlotChange)}
    (h : SparseSlots i fs gs changes) (j : Nat) :
    i + j ∈ changes.map Prod.fst ↔
      ∃ f g, fs[j]? = some f ∧ gs[j]? = some g ∧ ¬f.Alike g := by
  induction fs generalizing i j gs changes with
  | nil =>
      cases h with
      | nil => simp
  | cons f fs ih =>
      -- the rest starts behind this position
      have hbehind {gs : List Filling} {changes : List (Nat × SlotChange)}
          (hrest : SparseSlots (i + 1) fs gs changes) : i ∉ changes.map Prod.fst :=
        fun hin => absurd (hrest.le_of_mem hin) (Nat.not_succ_le_self i)
      have hsucc (k : Nat) : i + (k + 1) = i + 1 + k := by omega
      cases h with
      | skip halike hrest =>
          cases j with
          | zero => simp [hbehind hrest, halike]
          | succ k =>
              rw [hsucc, ih hrest k]
              rfl
      | say hdiffers _ hrest =>
          cases j with
          | zero => simp [hdiffers]
          | succ k =>
              have hne : i + (k + 1) ≠ i := by omega
              rw [List.map_cons, List.mem_cons, or_iff_right hne, hsucc, ih hrest k]
              rfl

theorem SparseSlots.eq_nil_iff {i : Nat} {fs gs : List Filling}
    {changes : List (Nat × SlotChange)} (h : SparseSlots i fs gs changes) :
    changes = [] ↔ stillEach fs = stillEach gs := by
  induction fs generalizing i gs changes with
  | nil =>
      cases h with
      | nil => exact iff_of_true rfl rfl
  | cons f fs ih =>
      cases h with
      | skip halike hrest =>
          have hone : stillOf f = stillOf _ := halike
          rw [stillEach, stillEach, hone, List.cons.injEq, ih hrest]
          simp
      | say hdiffers _ _ =>
          refine iff_of_false (List.cons_ne_nil _ _) ?_
          intro heq
          exact hdiffers (List.cons.inj heq).1

theorem SparseRows.eq_nil_iff {i : Nat} {ts us : List Tree} {changes : List (Nat × Patch)}
    (h : SparseRows i ts us changes) : changes = [] ↔ stillTrees ts = stillTrees us := by
  induction ts generalizing i us changes with
  | nil =>
      cases h with
      | nil => exact iff_of_true rfl rfl
  | cons t ts ih =>
      cases h with
      | skip halike hrest =>
          rw [stillTrees, stillTrees, halike, List.cons.injEq, ih hrest]
          simp
      | say hsome hslots _ =>
          refine iff_of_false (List.cons_ne_nil _ _) ?_
          intro heq
          have hfillings := (Tree.mk.inj (List.cons.inj heq).1).2
          exact hsome (hslots.eq_nil_iff.mpr hfillings)

end Patch

/-- What is said of a hole, if anything. -/
def Filling.Told (f g : Filling) : Option SlotChange → Prop
  | none => f.Alike g
  | some change => ¬f.Alike g ∧ change.Sparse f g

namespace Tree

/-! ## Comparing trees that have nothing for lists -/

theorem not_alike_of_sentWhole {f g : Filling} (h : f.SentWhole g) : ¬f.Alike g := by
  unfold Filling.Alike
  intro halike
  cases f with
  | text a => cases g with
    | text b => exact h (Filling.text.inj halike)
    | choice d u => cases u <;> cases halike
    | _ => cases halike
  | choice c t => cases t with
    | none => cases g with
      | choice d u => cases u with
        | none => exact h
        | some u => cases halike
      | _ => cases halike
    | some t => cases g with
      | choice d u => cases u with
        | none => cases halike
        | some u =>
            obtain ⟨hbranch, htree⟩ := Filling.choice.inj halike
            obtain ⟨s, fs⟩ := t
            obtain ⟨s', gs⟩ := u
            rcases h with hne | hne
            · exact hne hbranch
            · exact hne (Tree.mk.inj (Option.some.inj htree)).1
      | _ => cases halike
  | loop old before => cases g with
    | loop new after => exact h (Filling.loop.inj halike).1
    | choice d u => cases u <;> cases halike
    | _ => cases halike
  | stream old edits before => cases g with
    | stream new edits' after => exact h (Filling.stream.inj halike).1
    | choice d u => cases u <;> cases halike
    | _ => cases halike
  | component k changed => cases g with
    | component l changed' => exact h (Filling.component.inj halike).1
    | choice d u => cases u <;> cases halike
    | _ => cases halike

/-- What has to be sent whole is said. -/
theorem told_whole {f g : Filling} (h : f.SentWhole g) : f.Told g (some (.set (slot g))) :=
  ⟨not_alike_of_sentWhole h, .whole h⟩

/-- What is said of a tree in a branch that is kept. -/
theorem told_nested {c : Option Nat} {t u : Tree} {changes : List (Nat × SlotChange)}
    (hshape : t.shape = u.shape) (h : Patch.SparseSlots 0 t.fillings u.fillings changes) :
    (Filling.choice c (some t)).Told (.choice c (some u)) (nested (.update changes)) := by
  obtain ⟨s, fs⟩ := t
  obtain ⟨s', gs⟩ := u
  obtain rfl : s = s' := hshape
  have hnil : changes = [] ↔ stillEach fs = stillEach gs := h.eq_nil_iff
  cases changes with
  | nil =>
      change stillOf _ = stillOf _
      simp only [stillOf, still, hnil.mp rfl]
  | cons change changes =>
      refine ⟨?_, .tree (List.cons_ne_nil _ _) h⟩
      intro halike
      have htree := Option.some.inj (Filling.choice.inj halike).2
      exact List.cons_ne_nil _ _ (hnil.mpr (Tree.mk.inj htree).2)

/-- What is said of as many entries of the same body. -/
theorem told_rows {body : Shape} {before after : List Tree} {changes : List (Nat × Patch)}
    (hlen : before.length = after.length) (h : Patch.SparseRows 0 before after changes) :
    (Filling.loop body before).Told (.loop body after)
      (if changes.isEmpty then none else some (.rowChanges changes)) := by
  have hnil := h.eq_nil_iff
  cases changes with
  | nil =>
      change stillOf _ = stillOf _
      simp only [stillOf, hnil.mp rfl]
  | cons change changes =>
      refine ⟨?_, .rowChanges hlen (List.cons_ne_nil _ _) h⟩
      intro halike
      exact List.cons_ne_nil _ _ (hnil.mpr (Filling.loop.inj halike).2)

/-- All entries are said if there is another number of them. -/
theorem not_alike_of_length {body : Shape} {before after : List Tree}
    (hlen : before.length ≠ after.length) :
    ¬(Filling.loop body before).Alike (.loop body after) := by
  intro halike
  have hentries := congrArg List.length (Filling.loop.inj halike).2
  rw [stillTrees_eq_map, stillTrees_eq_map, List.length_map, List.length_map] at hentries
  exact hlen hentries

mutual

theorem sparse_of_patchTo : ∀ (new old : Tree) (p : Patch), old.WellFormed → new.WellFormed →
    old.shape = new.shape → new.Quiet → old.patchTo .nowhere new = .ok p →
    ∃ changes, p = .update changes ∧ Patch.SparseSlots 0 old.fillings new.fillings changes
  | .mk s gs, .mk s' fs, p, hold, hnew, hshape, hquiet, h => by
      obtain rfl : s' = s := hshape
      obtain ⟨changes, hchanges, rfl⟩ := patchTo_same_inv h
      exact ⟨changes, rfl, sparse_of_changesOfEach gs fs 0 changes (hold.1.trans hnew.1.symm) hold.2
        hnew.2 hquiet hchanges⟩

theorem sparse_of_changesOfEach : ∀ (after before : List Filling) (i : Nat)
    (changes : List (Nat × SlotChange)), before.length = after.length → WellFormedEach before →
    WellFormedEach after → QuietEach after →
    changesOfEach .nowhere i before after = .ok changes →
    Patch.SparseSlots i before after changes
  | [], [], i, changes, _, _, _, _, h => by
      obtain rfl := Except.ok.inj ((changesOfEach_nil i).symm.trans h)
      exact .nil
  | a :: as, b :: bs, i, changes, hlen, hbefore, hafter, hquiet, h => by
      obtain ⟨change, rest, hchange, hrest, rfl⟩ := changesOfEach_cons_inv h
      have htold := sparse_of_changeOf a b change hbefore.1 hafter.1 hquiet.1 hchange
      have hsparse := sparse_of_changesOfEach as bs (i + 1) rest (Nat.succ.inj hlen) hbefore.2
        hafter.2 hquiet.2 hrest
      cases change with
      | none => exact .skip htold hsparse
      | some change => exact .say htold.1 htold.2 hsparse

theorem sparse_of_changeOf : ∀ (after before : Filling) (change : Option SlotChange),
    WellFormedFilling before → WellFormedFilling after → QuietFilling after →
    changeOf .nowhere before after = .ok change → before.Told after change
  | .choice _ (some u), before, change, hbefore, hafter, hquiet, h => by
      cases compared_of_changeOf h with
      | whole hwhole => exact told_whole hwhole
      | @branch _ t _ p hp =>
          by_cases hs : t.shape = u.shape
          · obtain ⟨changes, rfl, hsparse⟩ :=
              sparse_of_patchTo u t p hbefore.branch hafter.branch hs hquiet hp
            exact told_nested hs hsparse
          · -- another template in the branch
            obtain ⟨s, fs⟩ := t
            obtain ⟨s', gs⟩ := u
            obtain ⟨-, rfl⟩ | ⟨rfl, -⟩ := patchTo_cases hp
            · exact told_whole (.inr hs)
            · exact absurd rfl hs
  | .loop body after, before, change, hbefore, hafter, hquiet, h => by
      cases compared_of_changeOf h with
      | whole hwhole => exact told_whole hwhole
      | same hkept => exact absurd hkept Places.not_nowhere
      | rows hlen => exact ⟨not_alike_of_length hlen, .rows hlen⟩
      | @entries _ before _ changes hlen hchanges =>
          exact told_rows hlen (sparse_of_changesOfEntries after before body 0 changes hlen hbefore
            hafter hquiet hchanges)
  | .stream _ edits _, before, change, _, _, hquiet, h => by
      obtain rfl : edits = none := hquiet.1
      cases compared_of_changeOf h with
      | whole hwhole => exact told_whole hwhole
      | stream => rfl
  | .choice none none, before, change, hbefore, _, _, h => by
      cases compared_of_changeOf h with
      | whole hwhole => exact told_whole hwhole
      | @nothing c _ =>
          cases c with
          | none => rfl
          | some c => exact hbefore.elim
  | .text _, before, change, _, _, _, h | .component _ _, before, change, _, _, _, h => by
      cases compared_of_changeOf h with
      | whole hwhole => exact told_whole hwhole
      | _ => rfl

theorem sparse_of_changesOfEntries : ∀ (after before : List Tree) (body : Shape) (i : Nat)
    (changes : List (Nat × Patch)), before.length = after.length → EntriesOf body before →
    EntriesOf body after → QuietTrees after →
    changesOfEntries .nowhere i before after = .ok changes →
    Patch.SparseRows i before after changes
  | [], [], _, i, changes, _, _, _, _, h => by
      obtain rfl := Except.ok.inj ((changesOfEntries_nil i).symm.trans h)
      exact .nil
  | u :: us, t :: ts, body, i, changes, hlen, hbefore, hafter, hquiet, h => by
      obtain ⟨⟨hold, htree⟩, hts⟩ := hbefore
      obtain ⟨⟨hnew, htree'⟩, hus⟩ := hafter
      -- all entries have the shape of the body
      have hshape : t.shape = u.shape := hold.trans hnew.symm
      obtain ⟨p, rest, hp, hrest, rfl⟩ := changesOfEntries_cons_inv h
      obtain ⟨slots, rfl, hone⟩ := sparse_of_patchTo u t p htree htree' hshape hquiet.1 hp
      have hothers := sparse_of_changesOfEntries us ts body (i + 1) rest (Nat.succ.inj hlen) hts hus
        hquiet.2 hrest
      obtain ⟨s, fs⟩ := t
      obtain ⟨s', gs⟩ := u
      obtain rfl : s = s' := hshape
      cases slots with
      | nil =>
          have hnil : stillEach fs = stillEach gs := hone.eq_nil_iff.mp rfl
          exact .skip (by rw [still, still, hnil]) hothers
      | cons slot slots => exact .say (List.cons_ne_nil _ _) hone hothers

end

/-- Two well-formed trees of one shape are compared by changes, which say just what differs. -/
theorem sparse_patchTo (new old : Tree) (hold : old.WellFormed) (hnew : new.WellFormed)
    (hshape : old.shape = new.shape) (hquiet : new.Quiet) :
    ∃ changes, old.patchTo .nowhere new = .ok (.update changes) ∧
      Patch.SparseSlots 0 old.fillings new.fillings changes := by
  obtain ⟨p, hp⟩ := exists_patch new old hold hnew
  obtain ⟨changes, rfl, hsparse⟩ := sparse_of_patchTo new old p hold hnew hshape hquiet hp
  exact ⟨changes, hp, hsparse⟩

/-- A list that is compared with itself has nothing said of it. -/
theorem changeOf_loop_self {body : Shape} {entries : List Tree} (hwf : EntriesOf body entries)
    (hquiet : QuietTrees entries) :
    changeOf .nowhere (.loop body entries) (.loop body entries) = .ok none := by
  obtain ⟨changes, hchanges⟩ := exists_changesOfEntries entries entries body 0 rfl hwf hwf
  have hsparse :=
    sparse_of_changesOfEntries entries entries body 0 changes rfl hwf hwf hquiet hchanges
  rw [changeOf_loop_same rfl rfl hchanges, hsparse.eq_nil_iff.mpr rfl]
  rfl

/-! ## Lists that were kept -/

/-- It makes no difference which lists were kept, where neither two branches nor two lists are
compared. -/
theorem changeOf_of_apart {kept : Places} {f g : Filling}
    (hbranch : ∀ c d t u, f = .choice c (some t) → g ≠ .choice d (some u))
    (hloop : ∀ old before new after, f = .loop old before → g ≠ .loop new after) :
    changeOf kept f g = changeOf .nowhere f g := by
  unfold changeOf
  split
  · rfl
  · rfl
  · next c t d u => exact absurd rfl (hbranch c d t u rfl)
  · next old before new after => exact absurd rfl (hloop old before new after rfl)
  · rfl
  · rfl
  · simp only

mutual

/-- **Keeping lists makes no difference to the patch**, as long as they were kept as they were. -/
theorem patchTo_kept : ∀ (new old : Tree) (kept : Places), new.WellFormed → new.Quiet →
    old.KeptBy (· = ·) kept new → old.patchTo kept new = old.patchTo .nowhere new
  | .mk s gs, .mk s' fs, kept, hwf, hquiet, hkept => by
      simp only [patchTo]
      by_cases hs : s' = s
      · subst hs
        rw [changesOfEach_kept gs fs 0 kept hwf.2 hquiet hkept.fillings]
      · simp only [if_pos hs]

theorem changesOfEach_kept : ∀ (after before : List Filling) (i : Nat) (kept : Places),
    WellFormedEach after → QuietEach after → Filling.KeptByEach (· = ·) kept i before after →
    changesOfEach kept i before after = changesOfEach .nowhere i before after
  | [], [], _, _, _, _, _ | [], _ :: _, _, _, _, _, _ | _ :: _, [], _, _, _, _, _ => by
      rw [changesOfEach, changesOfEach] <;> simp
  | a :: as, b :: bs, i, kept, hwf, hquiet, hkept => by
      rw [changesOfEach, changesOfEach, changeOf_kept a b _ hwf.1 hquiet.1 hkept.head,
        changesOfEach_kept as bs (i + 1) kept hwf.2 hquiet.2 hkept.tail]
      rfl

theorem changeOf_kept : ∀ (after before : Filling) (kept : Places), WellFormedFilling after →
    QuietFilling after → before.KeptBy (· = ·) kept after →
    changeOf kept before after = changeOf .nowhere before after
  | .choice (some d) (some u), .choice c (some t), kept, hwf, hquiet, hkept => by
      simp only [changeOf]
      by_cases hc : c = d
      · subst hc
        rw [patchTo_kept u t kept hwf hquiet hkept.branch]
      · simp only [if_neg hc]
  | .choice none (some _), _, _, hwf, _, _ => hwf.elim
  | .loop new after, .loop old before, kept, hwf, hquiet, hkept => by
      cases hone : kept [] with
      | true =>
          obtain ⟨rfl, rfl⟩ := Filling.loop.inj (hkept.here hone)
          rw [changeOf_loop_kept hone, changeOf_loop_self hwf hquiet]
      | false =>
          simp only [changeOf, hone]
          by_cases hbody : old = new
          · subst hbody
            rw [changesOfEntries_kept after before old 0 kept hwf hquiet hkept.entries]
            rfl
          · simp only [ne_eq, hbody, not_false_eq_true, if_true]
            rfl
  -- nothing else has a list in it
  | .text _, _, _, _, _, _ | .choice _ none, _, _, _, _, _ | .stream _ _ _, _, _, _, _, _
  | .component _ _, _, _, _, _, _
  | .choice _ (some _), .text _, _, _, _, _ | .choice _ (some _), .choice _ none, _, _, _, _
  | .choice _ (some _), .loop _ _, _, _, _, _ | .choice _ (some _), .stream _ _ _, _, _, _, _
  | .choice _ (some _), .component _ _, _, _, _, _ | .loop _ _, .text _, _, _, _, _
  | .loop _ _, .choice _ _, _, _, _, _ | .loop _ _, .stream _ _ _, _, _, _, _
  | .loop _ _, .component _ _, _, _, _, _ => changeOf_of_apart (by simp) (by simp)

theorem changesOfEntries_kept : ∀ (after before : List Tree) (body : Shape) (i : Nat)
    (kept : Places), EntriesOf body after → QuietTrees after →
    Tree.KeptByEach (· = ·) kept i before after →
    changesOfEntries kept i before after = changesOfEntries .nowhere i before after
  | [], [], _, _, _, _, _, _ | [], _ :: _, _, _, _, _, _, _ | _ :: _, [], _, _, _, _, _, _ => by
      rw [changesOfEntries, changesOfEntries] <;> simp
  | u :: us, t :: ts, body, i, kept, hwf, hquiet, hkept => by
      rw [changesOfEntries, changesOfEntries, patchTo_kept u t _ hwf.1.2 hquiet.1 hkept.head,
        changesOfEntries_kept us ts body (i + 1) kept hwf.2 hquiet.2 hkept.tail]
      rfl

end

/-- **A patch says what differs, and nothing else, at every depth.** Two well-formed trees of one
shape, of which the new one has nothing for the lists of a client, are compared by changes: of the
holes with something else in them and no others, and so on inside of what has changed. Whether a
list was kept or built anew makes no difference, and a tree has nothing to say against itself. -/
theorem patchTo_sparse {old new : Tree} (hold : old.WellFormed) (hnew : new.WellFormed)
    (hshape : old.shape = new.shape) (hquiet : new.Quiet) :
    (∃ changes, old.patchTo .nowhere new = .ok (.update changes) ∧
        Patch.SparseSlots 0 old.fillings new.fillings changes ∧
        (∀ i, i ∈ changes.map Prod.fst ↔
          ∃ f g, old.fillings[i]? = some f ∧ new.fillings[i]? = some g ∧ ¬f.Alike g) ∧
        (changes = [] ↔ old.still = new.still)) ∧
      (∀ kept : Places, old.KeptBy (· = ·) kept new ∨
          old.Fits ∧ new.Fits ∧ old.KeptBy Filling.SameEntries kept new →
        old.patchTo kept new = old.patchTo .nowhere new) ∧
      ∀ kept : Places, new.patchTo kept new = .ok (.update []) := by
  refine ⟨?_, ?_, ?_⟩
  · obtain ⟨changes, hp, hsparse⟩ := sparse_patchTo new old hold hnew hshape hquiet
    refine ⟨changes, hp, hsparse, ?_, ?_⟩
    · intro i
      rw [← hsparse.mem_iff i, Nat.zero_add]
    · obtain ⟨s, fs⟩ := old
      obtain ⟨s', gs⟩ := new
      obtain rfl : s = s' := hshape
      rw [hsparse.eq_nil_iff, still, still, Tree.mk.injEq]
      exact (and_iff_right rfl).symm
  · rintro kept (hkept | ⟨hfits, hfits', hkept⟩)
    · exact patchTo_kept new old kept hnew hquiet hkept
    · exact patchTo_kept new old kept hnew hquiet (hfits.keptBy hfits' hkept)
  · intro kept
    obtain ⟨changes, hp, hsparse⟩ := sparse_patchTo new new hnew hnew rfl hquiet
    rw [patchTo_kept new new kept hnew hquiet new.keptBy_self, hp, hsparse.eq_nil_iff.mpr rfl]

/-- The shape of an entry with a name in it. -/
def nameShape : Shape := .hole "<li>" .value (.text "</li>")

/-- The shape of a title, a list of names that may be folded away, a log, and a clock. -/
def boardShape : Shape :=
  .hole "<h1>" .value (.hole "</h1>" (.choice [.hole "<ul>" (.loop nameShape) (.text "</ul>")])
    (.hole "" (.stream "log" nameShape) (.hole "" (.component "clock") (.text ""))))

/-- A board with nothing new in its log. -/
def board (title : String) (names : List String) (ticks : Bool) : Tree :=
  .mk boardShape [.text title,
    .choice (some 0) (some (.mk (.hole "<ul>" (.loop nameShape) (.text "</ul>"))
      [.loop nameShape (names.map fun name => .mk nameShape [.text name])])),
    .stream nameShape none [], .component 7 ticks]

/-- One name changes and the clock ticks: only the list is mentioned. -/
theorem board_sparse :
    ∃ changes, (board "Today" ["Ada", "Bo"] false).patchTo .nowhere
        (board "Today" ["Ada", "Cy"] true) = .ok (.update changes) ∧
      Patch.SparseSlots 0 (board "Today" ["Ada", "Bo"] false).fillings
        (board "Today" ["Ada", "Cy"] true).fillings changes ∧
      1 ∈ changes.map Prod.fst ∧ 0 ∉ changes.map Prod.fst ∧ 3 ∉ changes.map Prod.fst := by
  have hwf (name : String) (ticks : Bool) : (board "Today" ["Ada", name] ticks).WellFormed := by
    simp [board, boardShape, nameShape, WellFormed, WellFormedEach, WellFormedFilling, EntriesOf,
      Tree.shape, Shape.arity, Shape.holes]
  have hquiet : (board "Today" ["Ada", "Cy"] true).Quiet := by
    simp [board, Quiet, QuietEach, QuietFilling, QuietTrees]
  obtain ⟨changes, hp, hsparse, hmem, -⟩ :=
    (patchTo_sparse (hwf "Bo" false) (hwf "Cy" true) rfl hquiet).1
  refine ⟨changes, hp, hsparse, ?_, ?_, ?_⟩
  · rw [hmem]
    refine ⟨_, _, rfl, rfl, ?_⟩
    simp [Filling.Alike, stillOf, still, stillEach, stillTrees, nameShape]
  · rw [hmem]
    rintro ⟨f, g, hf, hg, hne⟩
    obtain rfl := Option.some.inj hf
    obtain rfl := Option.some.inj hg
    exact hne rfl
  · rw [hmem]
    rintro ⟨f, g, hf, hg, hne⟩
    obtain rfl := Option.some.inj hf
    obtain rfl := Option.some.inj hg
    exact hne rfl

end Tree

end ViewSync
