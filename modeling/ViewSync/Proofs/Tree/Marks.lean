import ViewSync.Proofs.Template.Filling
import ViewSync.Proofs.Tree.Fits

/-!
# Marks of a rendering

What a tree shows of the rendering that it comes from, in the order of the holes: the stream holes
with what each has taken, the stream entries that were rendered, and the components that were
referred to, each with the innermost entry around it. A tree records no names of streams, so that
these are read off its shape. Where a template says what it reads there are no such marks.
-/

namespace ViewSync

/-- What a tree shows of its rendering. -/
inductive Mark where
  /-- A component was referred to, inside of a stream entry or not. -/
  | slot (owner : Option StreamEntry) (handle : Handle)
  /-- A stream hole was filled, with the edits that the stream had for it. -/
  | hole (name : String) (edits : Option StreamEdits)
  /-- A stream entry was rendered. -/
  | entry (entry : StreamEntry)
  deriving DecidableEq

namespace Mark

/-- The handle of a component. -/
def handle? : Mark → Option Handle
  | slot _ h => some h
  | _ => none

/-- The name of a stream that has a hole. -/
def stream? : Mark → Option String
  | hole name _ => some name
  | _ => none

end Mark

mutual

/-- The marks of some fillings inside of a stream entry or not. -/
def Shape.marks (owner : Option StreamEntry) : Shape → List Filling → List Mark
  | .text _, _ => []
  | .hole .., [] => []
  | .hole _ h rest, f :: fs => h.marks owner f ++ rest.marks owner fs

/-- The marks of a filling. -/
def HoleShape.marks (owner : Option StreamEntry) : HoleShape → Filling → List Mark
  | .choice shapes, .choice (some i) (some t) => Shape.marksAt owner shapes i t
  | .loop body, .loop _ entries => entries.flatMap fun t => body.marks owner t.fillings
  | .stream name body, .stream _ edits entries =>
    .hole name edits :: ((edits.elim [] (·.inserts)).zip entries).flatMap fun e =>
      .entry ⟨name, e.1.key⟩ :: body.marks (some ⟨name, e.1.key⟩) e.2.fillings
  | .component _, .component h _ => [.slot owner h]
  | _, _ => []

/-- The marks of a tree of the shape at a position. -/
def Shape.marksAt (owner : Option StreamEntry) : List Shape → Nat → Tree → List Mark
  | [], _, _ => []
  | s :: _, 0, t => s.marks owner t.fillings
  | _ :: ss, n + 1, t => Shape.marksAt owner ss n t

end

namespace Tree

/-- The marks of a tree. -/
def marks (t : Tree) : List Mark := t.shape.marks none t.fillings

/-- The names of the streams that have a hole in a tree. -/
def streams (t : Tree) : List String := t.marks.filterMap Mark.stream?

end Tree

/-! ## Templates that say what they read -/

mutual

/-- Where a template says what it reads, it leaves no marks. -/
theorem Template.marks_of_reads (owner : Option StreamEntry) : ∀ t : Template,
    t.reads ≠ .anything → ∀ fs : List Filling, t.shape.marks owner fs = []
  | .text _, _, _ => rfl
  | .hole .., _, [] => rfl
  | .hole _ h rest, hr, f :: fs => by
      obtain ⟨hone, hrest⟩ := Template.reads_hole_ne.mp hr
      change h.shape.marks owner f ++ rest.shape.marks owner fs = []
      rw [h.marks_of_reads owner hone, rest.marks_of_reads owner hrest, List.nil_append]

theorem Hole.marks_of_reads (owner : Option StreamEntry) : ∀ h : Hole, h.reads ≠ .anything →
    ∀ f : Filling, h.shape.marks owner f = []
  | .value .., _, f => by cases f <;> rfl
  | .choice _ _ branches, hr, f => by
      obtain ⟨-, hbranches⟩ := Reads.joinAll_ne_anything.mp hr
      change (HoleShape.choice branches.shapes).marks owner f = []
      unfold HoleShape.marks
      split
      · next heq =>
          obtain rfl := HoleShape.choice.inj heq
          exact branches.marks_of_reads owner hbranches _ _
      all_goals first | rfl | contradiction
  | .loop _ _ _ body, hr, f => by
      obtain ⟨-, hbody⟩ := Reads.join_ne_anything.mp hr
      change (HoleShape.loop body.shape).marks owner f = []
      unfold HoleShape.marks
      split
      · contradiction
      · next heq =>
          obtain rfl := HoleShape.loop.inj heq
          exact List.flatMap_eq_nil_iff.mpr fun t _ => body.marks_of_reads owner hbody t.fillings
      all_goals first | rfl | contradiction
  | .stream .., hr, _ => absurd rfl hr
  | .component .., hr, _ => absurd rfl hr

theorem Branches.marks_of_reads (owner : Option StreamEntry) : ∀ bs : Branches,
    (∀ q ∈ bs.reads, q ≠ .anything) → ∀ (i : Nat) (t : Tree), Shape.marksAt owner bs.shapes i t = []
  | .none, _, _, _ => rfl
  | .more t _, hr, 0, u => t.marks_of_reads owner (hr _ List.mem_cons_self) u.fillings
  | .more _ rest, hr, n + 1, u =>
      rest.marks_of_reads owner (fun q hq => hr q (List.mem_cons_of_mem _ hq)) n u

end

/-! ## Entries -/

/-- Marks inside of a stream entry, or outside of all, are complete when every entry is marked that
has a slot in it, and every entry that a hole was sent an insert of. -/
structure Mark.Complete (owner : Option StreamEntry) (ms : List Mark) : Prop where
  /-- An entry with a slot in it is marked, unless the marks are inside of it. -/
  slot : ∀ e h, .slot (some e) h ∈ ms → owner = some e ∨ .entry e ∈ ms
  /-- So is an entry that a hole was sent an insert of. -/
  hole : ∀ name edits, .hole name (some edits) ∈ ms →
    ∀ i ∈ edits.inserts, .entry ⟨name, i.key⟩ ∈ ms

namespace Mark.Complete

variable {owner : Option StreamEntry} {ms ms' : List Mark}

theorem nil : Complete owner [] where
  slot _ _ h := by cases h
  hole _ _ h := by cases h

theorem append (h : Complete owner ms) (h' : Complete owner ms') : Complete owner (ms ++ ms') where
  slot e k hin := by
    rcases List.mem_append.mp hin with hin | hin
    · exact (h.slot e k hin).imp_right (List.mem_append_left ms')
    · exact (h'.slot e k hin).imp_right (List.mem_append_right ms)
  hole name edits hin i hi := by
    rcases List.mem_append.mp hin with hin | hin
    · exact List.mem_append_left ms' (h.hole name edits hin i hi)
    · exact List.mem_append_right ms (h'.hole name edits hin i hi)

theorem flatMap {α : Type} {l : List α} {f : α → List Mark} (h : ∀ a ∈ l, Complete owner (f a)) :
    Complete owner (l.flatMap f) := by
  induction l with
  | nil => exact nil
  | cons a l ih =>
      rw [List.flatMap_cons]
      exact (h a List.mem_cons_self).append (ih fun b hb => h b (List.mem_cons_of_mem a hb))

/-- What is in an entry counts for the entry, which is marked. -/
theorem entry {e : StreamEntry} (h : Complete (some e) ms) : Complete owner (.entry e :: ms) where
  slot e' k hin := by
    have hin : .slot (some e') k ∈ ms := by simpa using hin
    rcases h.slot e' k hin with heq | hentry
    · obtain rfl := Option.some.inj heq
      exact .inr List.mem_cons_self
    · exact .inr (List.mem_cons_of_mem _ hentry)
  hole name edits hin i hi := by
    have hin : .hole name (some edits) ∈ ms := by simpa using hin
    exact List.mem_cons_of_mem _ (h.hole name edits hin i hi)

/-- A hole is sent one entry for each insert. -/
theorem stream {name : String} {edits : Option StreamEdits} {entries : List Tree}
    {f : Placement → Tree → List Mark}
    (hlen : entries.length = edits.elim 0 (·.inserts.length))
    (h : ∀ i, ∀ t ∈ entries, Complete (some ⟨name, i.key⟩) (f i t)) :
    Complete owner (.hole name edits :: ((edits.elim [] (·.inserts)).zip entries).flatMap fun e =>
      .entry ⟨name, e.1.key⟩ :: f e.1 e.2) := by
  have hentries : Complete owner (((edits.elim [] (·.inserts)).zip entries).flatMap fun e =>
      .entry ⟨name, e.1.key⟩ :: f e.1 e.2) :=
    flatMap fun e he => entry (h e.1 e.2 (List.of_mem_zip he).2)
  refine ⟨fun e k hin => ?_, fun name' edits' hin i hi => ?_⟩
  · have hin := (List.mem_cons.mp hin).resolve_left nofun
    exact (hentries.slot e k hin).imp_right (List.mem_cons_of_mem _)
  · refine List.mem_cons_of_mem _ ?_
    rcases List.mem_cons.mp hin with heq | hin
    · obtain ⟨rfl, rfl⟩ := Mark.hole.inj heq
      -- there is an entry at the position of the insert
      obtain ⟨n, hn⟩ := List.mem_iff_getElem?.mp hi
      have hlt : n < entries.length := hlen ▸ (List.getElem?_eq_some_iff.mp hn).1
      refine List.mem_flatMap.mpr ⟨(i, entries[n]), ?_, List.mem_cons_self⟩
      refine List.mem_of_getElem? (i := n) ?_
      rw [List.getElem?_zip_eq_some]
      exact ⟨hn, List.getElem?_eq_getElem hlt⟩
    · exact hentries.hole name' edits' hin i hi

end Mark.Complete

mutual

/-- **The marks of what fits are complete.** -/
theorem Shape.complete_marks (owner : Option StreamEntry) : ∀ (s : Shape) (fs : List Filling),
    s.Fits fs → Mark.Complete owner (s.marks owner fs)
  | .text _, _, _ => .nil
  | .hole _ h rest, f :: fs, hfits =>
      (h.complete_marks owner f hfits.1).append (rest.complete_marks owner fs hfits.2)

theorem HoleShape.complete_marks (owner : Option StreamEntry) : ∀ (h : HoleShape) (f : Filling),
    h.Fits f → Mark.Complete owner (h.marks owner f)
  | .value, .text _, _ => .nil
  | .choice _, .choice none none, _ => .nil
  | .choice shapes, .choice (some i) (some t), hfits =>
      Shape.complete_marksAt owner shapes i t hfits
  | .loop body, .loop _ entries, hfits =>
      .flatMap fun t ht => body.complete_marks owner t.fillings (hfits.2 t ht).2
  | .stream name body, .stream _ edits entries, hfits =>
      .stream hfits.2.1 fun i t ht =>
        body.complete_marks (some ⟨name, i.key⟩) t.fillings (hfits.2.2 t ht).2
  | .component _, .component h _, _ => by
      refine ⟨fun e k hin => .inl ?_, fun _ _ hin => ?_⟩
      · exact (Mark.slot.inj (List.mem_singleton.mp hin)).1.symm
      · cases List.mem_singleton.mp hin
  | .component _, .text _, _ => .nil

theorem Shape.complete_marksAt (owner : Option StreamEntry) : ∀ (shapes : List Shape) (i : Nat)
    (t : Tree), Shape.FitsAt shapes i t → Mark.Complete owner (Shape.marksAt owner shapes i t)
  | s :: _, 0, t, hfits => s.complete_marks owner t.fillings hfits.2
  | _ :: ss, n + 1, t, hfits => Shape.complete_marksAt owner ss n t hfits

end

/-! ## Handles -/

/-- The handles of entries are those in their marks, whatever is marked beside. -/
theorem Tree.handlesOfTrees_marks {α : Type} {l : List α} {g : α → Tree} {f : α → List Mark}
    (h : ∀ a ∈ l, (f a).filterMap Mark.handle? = (g a).handles) :
    (l.flatMap f).filterMap Mark.handle? = Tree.handlesOfTrees (l.map g) := by
  induction l with
  | nil => rfl
  | cons a l ih =>
      rw [List.flatMap_cons, List.filterMap_append, h a List.mem_cons_self,
        ih fun b hb => h b (List.mem_cons_of_mem a hb)]
      rfl

mutual

/-- The handles in what fits are those in its marks. -/
theorem Shape.handles_marks (owner : Option StreamEntry) : ∀ (s : Shape) (fs : List Filling),
    s.Fits fs → (s.marks owner fs).filterMap Mark.handle? = Tree.handlesOfEach fs
  | .text _, fs, hfits => by
      obtain rfl : fs = [] := hfits
      rfl
  | .hole _ h rest, f :: fs, hfits => by
      rw [Shape.marks, List.filterMap_append, h.handles_marks owner f hfits.1,
        rest.handles_marks owner fs hfits.2]
      rfl

theorem HoleShape.handles_marks (owner : Option StreamEntry) : ∀ (h : HoleShape) (f : Filling),
    h.Fits f → (h.marks owner f).filterMap Mark.handle? = Tree.handlesOf f
  | .value, .text _, _ => rfl
  | .choice _, .choice none none, _ => rfl
  | .choice shapes, .choice (some i) (some t), hfits =>
      Shape.handles_marksAt owner shapes i t hfits
  | .loop body, .loop _ entries, hfits => by
      have hentries := Tree.handlesOfTrees_marks (g := id)
        fun t (ht : t ∈ entries) => body.handles_entry owner t (hfits.2 t ht)
      rwa [List.map_id] at hentries
  | .stream name body, .stream _ edits entries, hfits => by
      have hlen : entries.length = (edits.elim [] (·.inserts)).length :=
        hfits.2.1.trans (by cases edits <;> rfl)
      have hentries := Tree.handlesOfTrees_marks (g := Prod.snd)
        (l := (edits.elim [] (·.inserts)).zip entries)
        (f := fun e => .entry ⟨name, e.1.key⟩ :: body.marks (some ⟨name, e.1.key⟩) e.2.fillings)
        fun e he => body.handles_entry _ e.2 (hfits.2.2 e.2 (List.of_mem_zip he).2)
      rw [List.map_snd_zip (Nat.le_of_eq hlen)] at hentries
      exact hentries
  | .component _, .component _ _, _ => rfl
  | .component _, .text _, _ => rfl

theorem Shape.handles_entry (owner : Option StreamEntry) : ∀ (body : Shape) (t : Tree),
    t.shape = body ∧ body.Fits t.fillings →
    (body.marks owner t.fillings).filterMap Mark.handle? = t.handles
  | body, .mk _ fs, hfits => body.handles_marks owner fs hfits.2

theorem Shape.handles_marksAt (owner : Option StreamEntry) : ∀ (shapes : List Shape) (i : Nat)
    (t : Tree), Shape.FitsAt shapes i t →
    (Shape.marksAt owner shapes i t).filterMap Mark.handle? = t.handles
  | s :: _, 0, .mk _ fs, hfits => s.handles_marks owner fs hfits.2
  | _ :: ss, n + 1, t, hfits => Shape.handles_marksAt owner ss n t hfits

end

/-- **The handles in a tree are those in its marks.** -/
theorem Tree.Fits.handles_eq {t : Tree} (h : t.Fits) :
    t.handles = t.marks.filterMap Mark.handle? := by
  obtain ⟨s, fs⟩ := t
  exact (s.handles_marks none fs h).symm

theorem Tree.Fits.mem_handles {t : Tree} (ht : t.Fits) {h : Handle} :
    h ∈ t.handles ↔ ∃ owner, .slot owner h ∈ t.marks := by
  rw [ht.handles_eq, List.mem_filterMap]
  constructor
  · rintro ⟨m, hm, hh⟩
    cases m with
    | slot owner k =>
        obtain rfl := Option.some.inj hh
        exact ⟨owner, hm⟩
    | hole => cases hh
    | entry => cases hh
  · rintro ⟨owner, hin⟩
    exact ⟨_, hin, rfl⟩

theorem Tree.mem_streams {t : Tree} {name : String} :
    name ∈ t.streams ↔ ∃ edits, .hole name edits ∈ t.marks := by
  unfold Tree.streams
  rw [List.mem_filterMap]
  constructor
  · rintro ⟨m, hm, heq⟩
    cases m with
    | hole other edits =>
        obtain rfl := Option.some.inj heq
        exact ⟨edits, hm⟩
    | slot => cases heq
    | entry => cases heq
  · rintro ⟨edits, hin⟩
    exact ⟨_, hin, rfl⟩

end ViewSync
