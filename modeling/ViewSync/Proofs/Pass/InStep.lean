import Mathlib.Data.List.Forall2
import ViewSync.Proofs.Pass.Course
import ViewSync.Proofs.Pass.Reuse
import ViewSync.Proofs.Tree.Handles

/-!
# Entries and inserts

The slot of a stream has an entry for each insert that the stream had for the client, in the order
of the inserts. That the numbers agree is part of what it is for a tree to fit. That no two entries
are exchanged cannot be seen in a tree, since an entry does not say which insert it is for. So it is
said of trees together with where they came from: the edits are those of a flush that the stream
had, and an entry is what the body was rendered to with the item and the key of its insert in scope,
but for components that were dropped later.

Whatever was there before is of no consequence to this. A pass keeps entries of loops only, and only
where the body reads nothing but what it says, and then there is no stream in it.
-/

namespace ViewSync

/-- A tree that the body of a stream was rendered to for an insert, but for some components. -/
def Template.DrawnFor (host : Host) (body : Template) (binding stream : String)
    (i : Stream.Insert) (t : Tree) : Prop :=
  ∃ (s : Scope) (p : Pass) (fs : List Filling) (gone : List Handle),
    ((Pass.holes host (some ⟨stream, i.key⟩)
        ((s.bind binding i.item).bind Pass.keyLocal (.str i.key)) body []).run p).1 = .ok fs ∧
      t = (Tree.mk body.shape fs).blank gone

mutual

/-- The entries of every stream are those of the inserts of a flush that the stream had for the
client, one by one. -/
def Template.InStep (host : Host) (had : String → Stream.Flush → Prop) :
    Template → List Filling → Prop
  | .text _, _ => True
  | .hole .., [] => True
  | .hole _ h rest, f :: fs => h.InStep host had f ∧ rest.InStep host had fs

/-- The same of the streams in one hole. A stream that had nothing for the client has no entries. -/
def Hole.InStep (host : Host) (had : String → Stream.Flush → Prop) : Hole → Filling → Prop
  | .choice _ _ branches, .choice (some i) (some t) => branches.InStep host had i t
  | .loop _ _ _ body, .loop _ entries => ∀ t ∈ entries, body.InStep host had t.fillings
  | .stream _ _ _, .stream _ none entries => entries = []
  | .stream name binding body, .stream _ (some edits) entries =>
    ∃ flush, had name flush ∧ edits = flush.edits ∧ List.Forall₂ (fun i t =>
      body.DrawnFor host binding flush.name i t ∧ body.InStep host had t.fillings)
      flush.inserts entries
  | _, _ => True

/-- The same of the branch at a position. -/
def Branches.InStep (host : Host) (had : String → Stream.Flush → Prop) :
    Branches → Nat → Tree → Prop
  | .none, _, _ => True
  | .more t _, 0, tree => t.InStep host had tree.fillings
  | .more _ rest, n + 1, tree => rest.InStep host had n tree

end

variable {host : Host} {had : String → Stream.Flush → Prop}

/-! ## Blanking -/

theorem Template.DrawnFor.blank {body : Template} {binding stream : String} {i : Stream.Insert}
    {t : Tree} (h : body.DrawnFor host binding stream i t) (gone : List Handle) :
    body.DrawnFor host binding stream i (t.blank gone) := by
  obtain ⟨s, p, fs, earlier, hrun, rfl⟩ := h
  exact ⟨s, p, fs, earlier ++ gone, hrun, Tree.blank_blank earlier gone _⟩

mutual

theorem Template.inStep_blank {gone : List Handle} : ∀ (t : Template) (fs : List Filling),
    t.InStep host had fs → t.InStep host had (Tree.blankEach gone fs)
  | .text _, _, _ => trivial
  | .hole .., [], _ => trivial
  | .hole _ h rest, f :: fs, hs => ⟨h.inStep_blank f hs.1, rest.inStep_blank fs hs.2⟩

theorem Hole.inStep_blank {gone : List Handle} : ∀ (h : Hole) (f : Filling),
    h.InStep host had f → h.InStep host had (Tree.blankFilling gone f)
  | .value .., _, _ => trivial
  | .choice _ _ branches, f, hs => by
      cases f with
      | choice b tree =>
          cases tree with
          | none => exact hs
          | some t =>
              cases b with
              | none => trivial
              | some i => exact branches.inStep_blank i t hs
      | component h changed =>
          rw [Tree.blankFilling]
          split <;> trivial
      | _ => trivial
  | .loop _ _ _ body, f, hs => by
      cases f with
      | loop shape entries =>
          intro t ht
          rw [Tree.blankTrees_eq_map] at ht
          obtain ⟨u, hu, rfl⟩ := List.mem_map.mp ht
          rw [Tree.fillings_blank]
          exact body.inStep_blank u.fillings (hs u hu)
      | component h changed =>
          rw [Tree.blankFilling]
          split <;> trivial
      | choice b tree => cases tree <;> trivial
      | _ => trivial
  | .stream _ _ body, f, hs => by
      cases f with
      | stream shape edits entries =>
          cases edits with
          | none =>
              obtain rfl : entries = [] := hs
              rfl
          | some edits =>
              obtain ⟨flush, hflush, hedits, hentries⟩ := hs
              refine ⟨flush, hflush, hedits, ?_⟩
              rw [Tree.blankTrees_eq_map, List.forall₂_map_right_iff]
              refine hentries.imp fun i t ht => ⟨ht.1.blank gone, ?_⟩
              rw [Tree.fillings_blank]
              exact body.inStep_blank t.fillings ht.2
      | component h changed =>
          rw [Tree.blankFilling]
          split <;> trivial
      | choice b tree => cases tree <;> trivial
      | _ => trivial
  | .component .., _, _ => trivial

theorem Branches.inStep_blank {gone : List Handle} : ∀ (bs : Branches) (i : Nat) (t : Tree),
    bs.InStep host had i t → bs.InStep host had i (t.blank gone)
  | .none, _, _, _ => trivial
  | .more t _, 0, .mk _ fs, hs => t.inStep_blank fs hs
  | .more _ rest, i + 1, t, hs => rest.inStep_blank i t hs

end

/-! ## Where there is no stream -/

mutual

/-- Where a template says what it reads, there is no stream in it. -/
theorem Template.inStep_of_reads : ∀ (t : Template) (fs : List Filling), t.reads ≠ .anything →
    t.InStep host had fs
  | .text _, _, _ => trivial
  | .hole .., [], _ => trivial
  | .hole _ h rest, f :: fs, hr => by
      obtain ⟨hone, hrest⟩ := Template.reads_hole_ne.mp hr
      exact ⟨h.inStep_of_reads f hone, rest.inStep_of_reads fs hrest⟩

theorem Hole.inStep_of_reads : ∀ (h : Hole) (f : Filling), h.reads ≠ .anything →
    h.InStep host had f
  | .value .., _, _ => trivial
  | .choice _ _ branches, f, hr => by
      obtain ⟨-, hbranches⟩ := Reads.joinAll_ne_anything.mp hr
      match f with
      | .choice (some i) (some t) => exact branches.inStep_of_reads i t hbranches
      | .choice none _ | .choice (some _) none | .text _ | .loop .. | .stream ..
      | .component .. => trivial
  | .loop _ _ _ body, f, hr => by
      obtain ⟨-, hbody⟩ := Reads.join_ne_anything.mp hr
      match f with
      | .loop _ entries => exact fun t _ => body.inStep_of_reads t.fillings hbody
      | .choice .. | .text _ | .stream .. | .component .. => trivial
  | .stream .., _, hr => absurd rfl hr
  | .component .., _, _ => trivial

theorem Branches.inStep_of_reads : ∀ (bs : Branches) (i : Nat) (t : Tree),
    (∀ q ∈ bs.reads, q ≠ .anything) → bs.InStep host had i t
  | .none, _, _, _ => trivial
  | .more t _, 0, .mk _ fs, hr => t.inStep_of_reads fs (hr _ List.mem_cons_self)
  | .more _ rest, i + 1, t, hr =>
      rest.inStep_of_reads i t fun q hq => hr q (List.mem_cons_of_mem _ hq)

end

namespace Pass

/-! ## Rendering -/

variable {α β : Type} {P : Pass → Prop}

/-- A pass has noted nothing that is fatal, and what it finds of streams is what they had for the
client. -/
structure Fair (had : String → Stream.Flush → Prop) (p : Pass) : Prop where
  /-- Nothing fatal was noted. -/
  errors : ∀ e ∈ p.errors, e.isFatal = false
  /-- The flushes are from the streams. -/
  flushes : ∀ name f, p.flushes.get? name = some f → had name f

/-- The roster does not matter. -/
theorem Fair.withRoster {p : Pass} (hp : p.Fair had) (roster : Roster) :
    Fair had { p with roster } := ⟨hp.errors, hp.flushes⟩

theorem Fair.take {p : Pass} (hp : p.Fair had) (name : String) :
    Fair had { p with flushes := p.flushes.erase name } where
  errors := hp.errors
  flushes k f hf := by
    rw [Keyed.get?_erase] at hf
    split at hf
    · cases hf
    · exact hp.flushes k f hf

theorem Fair.note {p : Pass} (hp : p.Fair had) {e : Error} (he : e.isFatal = false) :
    Fair had { p with errors := p.errors ++ [e] } :=
  ⟨List.forall_mem_append.mpr ⟨hp.errors, List.forall_mem_singleton.mpr he⟩, hp.flushes⟩

/-- What a step yields, it yields from some state. -/
theorem Yields.run {x : PassM α} {Q : α → Prop} (hx : Yields P x Q) :
    Yields P x fun a => (∃ p, (x.run p).1 = .ok a) ∧ Q a :=
  fun p hp => ⟨(hx p hp).1, fun a ha => ⟨⟨p, ha⟩, (hx p hp).2 a ha⟩⟩

/-- Many steps yield results one by one. -/
theorem Yields.forall₂ {f : β → PassM α} {R : β → α → Prop} (l : List β)
    (h : ∀ b, Yields P (f b) (R b)) : Yields P (l.mapM f) (List.Forall₂ R l) := by
  induction l with
  | nil => exact .pure .nil
  | cons b l ih =>
      rw [List.mapM_cons]
      exact .bind (h b) fun a ha => .bind ih fun as has => .pure (.cons ha has)

/-- A component hole notes only what it does not pass on. -/
theorem fair_component (owner : Option StreamEntry) (s : Scope) (kind : KindRef)
    (id : Callback String) (props : Callback Fields) :
    Yields (Fair had) (component host owner s kind id props) fun _ => True := by
  refine .tryCatch (.bind (Q := fun _ => True) ?_ fun r _ => .pure trivial) fun e => ?_
  · refine .ofExcept_bind fun i _ => .ofExcept_bind fun fields _ => ?_
    refine .bind (.modifyGet (Q := fun _ => True) fun p hp => ⟨?_, trivial⟩) fun r _ => ?_
    · exact hp.withRoster _
    · exact .ofExcept fun _ _ => trivial
  · split
    · exact .bind (Q := fun _ => False) (.throw e) fun _ h => h.elim
    · next he =>
        exact .bind (.modify fun p hp => hp.note (Bool.eq_false_iff.mpr he)) fun _ _ =>
          .pure trivial

mutual

theorem inStep_holes (owner : Option StreamEntry) (s : Scope) :
    ∀ (t : Template) (before : List Filling),
      Yields (Fair had) (holes host owner s t before) (t.InStep host had)
  | .text _, before => by
      unfold holes
      exact .pure trivial
  | .hole _ h rest, before => by
      unfold holes
      refine .bind (inStep_hole owner s h before.head?) fun f hf => ?_
      exact .bind (inStep_holes owner s rest before.tail) fun fs hfs => .pure ⟨hf, hfs⟩

theorem inStep_hole (owner : Option StreamEntry) (s : Scope) :
    ∀ (h : Hole) (before : Option Filling),
      Yields (Fair had) (hole host owner s h before) (h.InStep host had)
  | .value reads eval, before => by
      unfold hole
      split
      · exact .pure trivial
      · exact .ofExcept_bind fun v _ => .pure trivial
  | .choice reads choose branches, before => by
      unfold hole
      refine .ofExcept_bind fun b _ => ?_
      split
      · exact .pure trivial
      · next i _ => exact .bind (inStep_branch owner s branches i) fun t ht => .pure ht
  | .loop reads items binding body, before => by
      unfold hole
      split
      · next entries hkept =>
          refine .bind (.forM entries fun t _ => .modify fun p hp => hp.withRoster _) fun _ _ => ?_
          exact .pure fun t _ => body.inStep_of_reads t.fillings (reads_of_keptEntries hkept)
      · refine .ofExcept_bind fun values _ => ?_
        refine .bind (.mapM (Q := fun t => body.InStep host had t.fillings) values fun v _ => ?_)
          fun entries hentries => ?_
        · exact .bind (inStep_holes owner (s.bind binding v) body []) fun fs hfs => .pure hfs
        · exact .pure fun t ht => hentries.2 t ht
  | .stream name binding body, before => by
      unfold hole
      refine .bind (.modifyGet (Q := fun o => ∀ f, o = some f → had name f) fun p hp =>
        ⟨hp.take name, hp.flushes name⟩) fun o ho => ?_
      split
      · exact .pure rfl
      · next flush =>
          refine .bind (.forall₂ (R := fun i t => body.DrawnFor host binding flush.name i t ∧
            body.InStep host had t.fillings) flush.inserts fun i => ?_) fun entries hentries =>
              .pure ⟨flush, ho flush rfl, rfl, hentries⟩
          refine .bind (.modify fun p hp => hp.withRoster _) fun _ _ => ?_
          refine .bind (inStep_holes _ _ body []).run fun fs hfs => .pure ⟨?_, hfs.2⟩
          -- nothing is blanked in an entry that was just rendered
          obtain ⟨p, hrun⟩ := hfs.1
          refine ⟨s, p, fs, [], hrun, ?_⟩
          exact (Tree.blank_of_disjoint _ fun _ _ => List.not_mem_nil).symm
  | .component kind id props, before => by
      unfold hole
      exact (fair_component owner s kind id props).mono fun _ _ => trivial

theorem inStep_branch (owner : Option StreamEntry) (s : Scope) {before : Option Tree}
    {chosen count : Nat} : ∀ (bs : Branches) (n : Nat),
      Yields (Fair had) (branch host owner s before chosen count bs n) (bs.InStep host had n)
  | .none, n => by
      unfold branch
      exact .throw _
  | .more t rest, 0 => by
      unfold branch
      refine .ofExcept_bind fun kept _ => ?_
      exact .bind (inStep_holes owner s t kept) fun fs hfs => .pure hfs
  | .more t rest, n + 1 => by
      unfold branch
      exact inStep_branch owner s rest n

end

variable (host) in
/-- **Rendering yields entries for the inserts that it takes**, whatever tree was there before, and
notes nothing that is fatal. -/
theorem inStep_template (s : Scope) (t : Template) (before : Option Tree) :
    Yields (Fair had) (template host s t before) fun tree => t.InStep host had tree.fillings := by
  refine .ofExcept_bind fun kept _ => ?_
  exact .bind (inStep_holes none s t kept) fun fs hfs => .pure hfs

end Pass

/-! ## Trees that were built -/

/-- A tree is one that a template is rendered to: its shape is that of the template, it fits, and
its entries are those of the inserts. -/
structure Tree.Built (host : Host) (had : String → Stream.Flush → Prop) (t : Template)
    (tree : Tree) : Prop where
  /-- The tree has the shape of the template. -/
  shape : tree.shape = t.shape
  /-- Its fillings go into the holes. -/
  fits : tree.Fits
  /-- Its entries are those of the inserts. -/
  inStep : t.InStep host had tree.fillings

theorem Tree.Built.blank {t : Template} {tree : Tree} (h : tree.Built host had t)
    (gone : List Handle) : (tree.blank gone).Built host had t where
  shape := (shape_blank gone tree).trans h.shape
  fits := h.fits.blank gone
  inStep := by
    rw [fillings_blank]
    exact t.inStep_blank tree.fillings h.inStep

/-- What a template is rendered to is built, if what was there before fits. -/
theorem Pass.built_template {s : Scope} {t : Template} {before : Option Tree} {p : Pass}
    {tree : Tree} (hp : p.Fair had) (hbefore : ∀ b, before = some b → b.Fits)
    (h : ((template host s t before).run p).1 = .ok tree) : tree.Built host had t where
  shape := (template_ok h).1
  fits := fits_of_template h hbefore
  inStep := (inStep_template host s t before p hp).2 tree h

end ViewSync
