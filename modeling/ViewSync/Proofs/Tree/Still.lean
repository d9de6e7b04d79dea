import ViewSync.Proofs.Pass.Course
import ViewSync.Proofs.Patch.Application

/-!
# Trees that stay

What a pass leaves of a tree when nothing has changed: components are not rendered anew, and streams
have nothing for the client. Compared with the tree before, that says nothing at all.
-/

namespace ViewSync.Tree

mutual

/-- The tree, with nothing rendered anew in it. -/
def still : Tree → Tree
  | .mk s fs => .mk s (stillEach fs)

/-- What is in a hole, with nothing rendered anew in it. -/
def stillOf : Filling → Filling
  | .text s => .text s
  | .choice c none => .choice c none
  | .choice c (some t) => .choice c (some (still t))
  | .loop body entries => .loop body (stillTrees entries)
  | .stream body _ _ => .stream body none []
  | .component h _ => .component h false

/-- The same of each filling. -/
def stillEach : List Filling → List Filling
  | [] => []
  | f :: fs => stillOf f :: stillEach fs

/-- The same of each tree. -/
def stillTrees : List Tree → List Tree
  | [] => []
  | t :: ts => still t :: stillTrees ts

end

theorem stillTrees_eq_map (ts : List Tree) : stillTrees ts = ts.map still := by
  induction ts with
  | nil => rfl
  | cons t ts ih => rw [stillTrees, ih, List.map_cons]

theorem length_stillEach (fs : List Filling) : (stillEach fs).length = fs.length := by
  induction fs with
  | nil => rfl
  | cons f fs ih => exact congrArg Nat.succ ih

/-! ## Nothing is said of them -/

mutual

/-- **A tree that stays is not mentioned.** -/
theorem patchTo_still {kept : Places} : ∀ t : Tree, t.WellFormed →
    t.patchTo kept t.still = .ok (.update [])
  | .mk _ fs, h => patchTo_same h.1 ((length_stillEach fs).trans h.1) (changesOfEach_still fs 0 h.2)

theorem changesOfEach_still {kept : Places} : ∀ (fs : List Filling) (i : Nat), WellFormedEach fs →
    changesOfEach kept i fs (stillEach fs) = .ok []
  | [], i, _ => changesOfEach_nil i
  | f :: fs, i, h => changesOfEach_cons (changeOf_still f h.1) (changesOfEach_still fs (i + 1) h.2)

theorem changeOf_still {kept : Places} : ∀ f : Filling, WellFormedFilling f →
    changeOf kept f (stillOf f) = .ok none
  | .text _, _ => by
      simp only [stillOf, changeOf, if_true]
      rfl
  | .choice none none, _ => by
      simp only [stillOf, changeOf]
      rfl
  | .choice (some _) (some t), h => by
      simp only [stillOf, changeOf, if_true, patchTo_still t h]
      rfl
  | .loop body entries, h => by
      have hlen : entries.length = (stillTrees entries).length := by
        rw [stillTrees_eq_map, List.length_map]
      cases hkept : kept [] with
      | true => exact changeOf_loop_kept hkept
      | false => exact changeOf_loop_same hkept hlen (changesOfEntries_still entries 0 h)
  | .stream _ _ _, _ => by
      simp only [stillOf, changeOf, ne_eq, not_true_eq_false, if_false]
      rfl
  | .component _ _, _ => by
      simp only [stillOf, changeOf, if_true]
      rfl

theorem changesOfEntries_still {kept : Places} {body : Shape} : ∀ (ts : List Tree) (i : Nat),
    EntriesOf body ts → changesOfEntries kept i ts (stillTrees ts) = .ok []
  | [], i, _ => changesOfEntries_nil i
  | t :: ts, i, h =>
      changesOfEntries_cons (patchTo_still t h.1.2) (changesOfEntries_still ts (i + 1) h.2)

end

end ViewSync.Tree

namespace ViewSync

open ViewSync.Tree

/-! ## Trees that cannot but stay -/

mutual

/-- Where a template says what it reads, what fits it is rendered anew in no part. -/
theorem Template.still_fits : ∀ (t : Template) (fs : List Filling), t.reads ≠ .anything →
    t.shape.Fits fs → stillEach fs = fs
  | .text _, fs, _, hfits => by
      obtain rfl : fs = [] := by simpa [Template.shape, Shape.Fits] using hfits
      rfl
  | .hole _ h rest, [], _, hfits => absurd hfits (by simp [Template.shape, Shape.Fits])
  | .hole _ h rest, f :: fs, hr, hfits => by
      obtain ⟨hone, hrest⟩ := Template.reads_hole_ne.mp hr
      obtain ⟨hf, hfs⟩ : h.shape.Fits f ∧ rest.shape.Fits fs := by
        simpa [Template.shape, Shape.Fits] using hfits
      rw [stillEach, h.still_fits f hone hf, rest.still_fits fs hrest hfs]

theorem Hole.still_fits : ∀ (h : Hole) (f : Filling), h.reads ≠ .anything → h.shape.Fits f →
    stillOf f = f
  | .value .., .text _, _, _ => rfl
  | .choice .., .choice none none, _, _ => rfl
  | .choice _ _ branches, .choice (some i) (some t), hr, hfits => by
      obtain ⟨-, hbranches⟩ := Reads.joinAll_ne_anything.mp hr
      rw [stillOf, branches.still_fits i t hbranches hfits]
  | .loop _ _ _ body, .loop _ entries, hr, hfits => by
      obtain ⟨-, hbody⟩ := Reads.join_ne_anything.mp hr
      have hsame : ∀ t ∈ entries, still t = t := by
        rintro ⟨shape, fs⟩ ht
        rw [still, body.still_fits fs hbody (hfits.2 _ ht).2]
      rw [stillOf, stillTrees_eq_map, List.map_congr_left hsame, List.map_id']
  | .stream .., _, hr, _ => absurd rfl hr
  | .component .., _, hr, _ => absurd rfl hr

theorem Branches.still_fits : ∀ (bs : Branches) (i : Nat) (t : Tree),
    (∀ q ∈ bs.reads, q ≠ .anything) → Shape.FitsAt bs.shapes i t → still t = t
  | .more t _, 0, .mk _ fs, hr, hfits => by
      rw [still, t.still_fits fs (hr _ List.mem_cons_self) hfits.2]
  | .more _ rest, n + 1, t, hr, hfits =>
      rest.still_fits n t (fun q hq => hr q (List.mem_cons_of_mem _ hq)) hfits

end

/-- **A list that a pass keeps is the list that was there before**, under the body that it had, and
it has nothing to say against itself. -/
theorem Pass.unsaid_of_keptEntries {host : Host} {s : Scope} {reads : Reads}
    {items : Callback (List Value)} {binding : String} {body : Template} {before : Option Filling}
    {entries : List Tree} {kept : Places}
    (hbefore : ∀ f, before = some f → (Hole.loop reads items binding body).shape.Fits f)
    (h : keptEntries host s reads body before = some entries) :
    ∃ f, before = some f ∧ changeOf kept f (.loop body.shape entries) = .ok none := by
  have hb := (of_keptEntries h).1
  have hfit : (HoleShape.loop body.shape).Fits (.loop body.shape entries) := hbefore _ hb
  have hreads : (Hole.loop (.paths []) items binding body).reads ≠ .anything :=
    Reads.join_ne_anything.mpr ⟨by simp, reads_of_keptEntries h⟩
  have hstill : changeOf kept (.loop body.shape entries) (stillOf (.loop body.shape entries)) =
      .ok none := changeOf_still _ (HoleShape.wellFormed_of_fits _ _ hfit)
  rw [Hole.still_fits _ _ hreads hfit] at hstill
  exact ⟨_, hb, hstill⟩

end ViewSync
