import ViewSync.Proofs.Keyed
import ViewSync.Proofs.Pass.Steps
import ViewSync.Proofs.Tree.Fits

/-!
# What rendering keeps and yields

Whatever is true of what a pass writes to, and is kept by the few things that a hole does to it, is
kept by rendering; and what rendering yields fits the template, if the tree before did. One
induction over templates shows both. It also carries along a property of values, which the
callbacks of the host keep: props are made of such values when the assigns and the locals are.
-/

namespace ViewSync

/-! ## Values that callbacks make -/

/-- All values that a callback can read have a property. -/
structure Scope.All (Good : Value → Prop) (s : Scope) : Prop where
  /-- The values of bindings have it. -/
  locals : ∀ e ∈ s.locals, Good e.2
  /-- The values of assigns have it. -/
  assigns : ∀ name v, s.assigns.get? name = some v → Good v

theorem Scope.All.bind {Good : Value → Prop} {s : Scope} (h : s.All Good) (name : String)
    {v : Value} (hv : Good v) : (s.bind name v).All Good where
  locals := List.forall_mem_cons.mpr ⟨hv, h.locals⟩
  assigns := h.assigns

theorem Scope.All.get {Good : Value → Prop} {s : Scope} (h : s.All Good) {name : String}
    {v : Value} (hv : s.get name = .ok v) : Good v := by
  unfold Scope.get at hv
  split at hv
  · next w hw =>
      obtain rfl := Except.ok.inj hv
      exact h.locals _ (Keyed.mem_of_get? hw)
  · unfold Assigns.get at hv
    split at hv
    · next w hw =>
        obtain rfl := Except.ok.inj hv
        exact h.assigns name w hw
    · cases hv

mutual

/-- The items of loops and the props of components are made of values with a property, when what
their callbacks can read is. -/
def Template.Makes (Good : Value → Prop) : Template → Prop
  | .text _ => True
  | .hole _ h rest => h.Makes Good ∧ rest.Makes Good

/-- The same of one hole. -/
def Hole.Makes (Good : Value → Prop) : Hole → Prop
  | .value .. => True
  | .choice _ _ branches => branches.Makes Good
  | .loop _ items _ body =>
    (∀ s values, s.All Good → items s = .ok values → ∀ v ∈ values, Good v) ∧ body.Makes Good
  | .stream _ _ body => body.Makes Good
  | .component _ _ props => ∀ s fields, s.All Good → props s = .ok fields → ∀ f ∈ fields, Good f.2

/-- The same of each branch. -/
def Branches.Makes (Good : Value → Prop) : Branches → Prop
  | .none => True
  | .more t rest => t.Makes Good ∧ rest.Makes Good

end

namespace Pass

/-- A property of passes that everything which a hole does keeps. -/
structure Closed (kinds : Kinds) (Good : Value → Prop) (P : Pass → Prop) : Prop where
  /-- A reference with such props keeps it. -/
  refer : ∀ p id kind props owner, P p → (∀ f ∈ props, Good f.2) →
    P { p with roster := (p.roster.refer kinds id kind props owner).2 }
  /-- Following a tree keeps it. -/
  follow : ∀ p t, P p → P { p with roster := p.roster.followTree t }
  /-- Noting that an entry was drawn keeps it. -/
  draw : ∀ p e, P p → P { p with roster := p.roster.noteDrawn e }
  /-- Taking a flush keeps it. -/
  take : ∀ p name, P p → P { p with flushes := p.flushes.erase name }
  /-- Noting a failure keeps it. -/
  note : ∀ p e, P p → P { p with errors := p.errors ++ [e] }
  /-- The items that streams have for the client are such values. -/
  items : ∀ p name f, P p → p.flushes.get? name = some f → ∀ i ∈ f.inserts, Good i.item
  /-- So are their keys. -/
  keys : ∀ s, Good (.str s)

variable {host : Host} {Good : Value → Prop} {P : Pass → Prop}

theorem keptFillings_cases {t : Template} {before : Option Tree} {fs : List Filling}
    (h : keptFillings t before = .ok fs) :
    fs = [] ∨ ∃ tree, before = some tree ∧ tree.shape = t.shape ∧ fs = tree.fillings := by
  unfold keptFillings at h
  split at h
  · exact .inl (Except.ok.inj h).symm
  · next tree =>
      split at h
      · next hshape =>
          refine .inr ⟨tree, rfl, hshape, ?_⟩
          unfold Tree.checkFit at h
          split at h
          · exact (Except.ok.inj h).symm
          · cases h
      · exact .inl (Except.ok.inj h).symm

theorem fits_of_keptFillings {t : Template} {before : Option Tree} {fs : List Filling}
    (h : keptFillings t before = .ok fs) (hb : ∀ b, before = some b → b.Fits) :
    fs = [] ∨ t.shape.Fits fs := by
  rcases keptFillings_cases h with hnil | ⟨tree, hbefore, hshape, rfl⟩
  · exact .inl hnil
  · rw [← hshape]
    exact .inr (hb tree hbefore)

/-- A branch is compared with the tree of a choice before. -/
theorem treeOfBranch_some {b : Option Nat} {before : Option Filling} {t : Tree}
    (h : treeOfBranch b (branchBefore before) = some t) :
    before = some (.choice b (some t)) := by
  unfold treeOfBranch branchBefore at h
  split at h
  · next b' tree hbefore =>
      split at hbefore
      · next branch tree' =>
          simp only [Option.some.injEq, Prod.mk.injEq] at hbefore
          obtain ⟨rfl, rfl⟩ := hbefore
          split at h
          · next hb => rw [hb, h]
          · cases h
      · cases hbefore
  · cases h

theorem intactIn_of_mayKeep {s : Scope} {reads : Reads} (h : mayKeep host s reads = true) :
    reads.intactIn s.assigns = true := (Bool.and_eq_true_iff.mp h).2

/-- A text is kept from before, where nothing that it depends on has changed. -/
theorem of_keptText {s : Scope} {reads : Reads} {before : Option Filling} {text : String}
    (h : keptText host s reads before = some text) :
    before = some (.text text) ∧ reads.intactIn s.assigns = true := by
  unfold keptText at h
  split at h
  · split at h
    · next hkeep =>
        obtain rfl := Option.some.inj h
        exact ⟨rfl, intactIn_of_mayKeep hkeep⟩
    · cases h
  · cases h

/-- So are the entries of a loop, with the body that they were rendered with. -/
theorem of_keptEntries {s : Scope} {reads : Reads} {body : Template} {before : Option Filling}
    {entries : List Tree} (h : keptEntries host s reads body before = some entries) :
    before = some (.loop body.shape entries) ∧ reads.intactIn s.assigns = true ∧
      body.reads.intactIn s.assigns = true := by
  unfold keptEntries at h
  split at h
  · split at h
    · next hgood =>
        obtain rfl := Option.some.inj h
        simp only [Bool.and_eq_true, decide_eq_true_eq] at hgood
        obtain ⟨⟨rfl, hitems⟩, hbody⟩ := hgood
        exact ⟨rfl, intactIn_of_mayKeep hitems, intactIn_of_mayKeep hbody⟩
    · cases h
  · cases h

theorem yields_refer (hP : Closed host.kinds Good P) {s : Scope} (hs : s.All Good)
    {owner : Option StreamEntry} {kind : KindRef} {id : Callback String} {props : Callback Fields}
    (hprops : ∀ s fields, s.All Good → props s = .ok fields → ∀ f ∈ fields, Good f.2) :
    Yields P (refer host owner s kind id props) fun _ => True := by
  refine .bind (.ofExcept (Q := fun _ => True) fun _ _ => trivial) fun i _ => ?_
  refine .bind (.ofExcept (Q := fun fields => ∀ f ∈ fields, Good f.2) fun fields h =>
    hprops s fields hs h) fun fields hfields => ?_
  refine .bind (.modifyGet (Q := fun _ => True) fun p hp => ⟨?_, trivial⟩) fun r _ => ?_
  · exact hP.refer p i kind fields owner hp hfields
  · exact .ofExcept fun _ _ => trivial

theorem yields_component (hP : Closed host.kinds Good P) {s : Scope} (hs : s.All Good)
    {owner : Option StreamEntry} {kind : KindRef} {id : Callback String} {props : Callback Fields}
    (hprops : ∀ s fields, s.All Good → props s = .ok fields → ∀ f ∈ fields, Good f.2) :
    Yields P (component host owner s kind id props) (HoleShape.component kind.name).Fits := by
  refine .tryCatch (.bind (yields_refer hP hs hprops) fun r _ => .pure trivial) fun e => ?_
  split
  · exact .bind (Q := fun _ => False) (.throw e) fun _ h => h.elim
  · exact .bind (.modify fun p hp => hP.note p e hp) fun _ _ => .pure rfl

mutual

theorem yields_holes (hP : Closed host.kinds Good P) (owner : Option StreamEntry) {s : Scope}
    (hs : s.All Good) :
    ∀ (t : Template) (before : List Filling), t.Makes Good →
      Yields P (holes host owner s t before) fun fs =>
        (before = [] ∨ t.shape.Fits before) → t.shape.Fits fs
  | .text _, before, _ => by
      unfold holes
      exact .pure fun _ => rfl
  | .hole _ h rest, before, hm => by
      unfold holes
      refine .bind (yields_hole hP owner hs h before.head? hm.1) fun f hf => ?_
      refine .bind (yields_holes hP owner hs rest before.tail hm.2) fun fs hfs => ?_
      refine .pure fun hb => ?_
      -- fillings from before are lined up with the holes one by one
      cases before with
      | nil => exact ⟨hf (by simp), hfs (.inl rfl)⟩
      | cons b bs =>
          obtain ⟨hb, hbs⟩ : h.shape.Fits b ∧ rest.shape.Fits bs := by
            simpa [Template.shape, Shape.Fits] using hb
          exact ⟨hf fun c hc => by obtain rfl := Option.some.inj hc; exact hb, hfs (.inr hbs)⟩

theorem yields_hole (hP : Closed host.kinds Good P) (owner : Option StreamEntry) {s : Scope}
    (hs : s.All Good) :
    ∀ (h : Hole) (before : Option Filling), h.Makes Good →
      Yields P (hole host owner s h before) fun f =>
        (∀ b, before = some b → h.shape.Fits b) → h.shape.Fits f
  | .value reads eval, before, _ => by
      unfold hole
      split
      · exact .pure fun _ => trivial
      · exact .bind (.ofExcept (Q := fun _ => True) fun _ _ => trivial) fun v _ =>
          .pure fun _ => trivial
  | .choice reads choose branches, before, hm => by
      unfold hole
      refine .bind (.ofExcept (Q := fun _ => True) fun _ _ => trivial) fun b _ => ?_
      split
      · exact .pure fun _ => trivial
      · next i =>
          refine .bind (yields_branch hP owner hs branches i hm) fun t ht => ?_
          refine .pure fun hb => ht fun b hbefore => ?_
          have hfit : (HoleShape.choice branches.shapes).Fits (.choice (some i) (some b)) :=
            hb _ (treeOfBranch_some hbefore)
          exact (Shape.fitsAt_iff.mp hfit).2
  | .loop reads items binding body, before, hm => by
      unfold hole
      split
      · next entries hkept =>
          refine .bind (.forM entries fun t _ => .modify fun p hp => hP.follow p t hp) fun _ _ => ?_
          exact .pure fun hb => hb _ (of_keptEntries hkept).1
      · refine .bind (.ofExcept (Q := fun values => ∀ v ∈ values, Good v) fun values h =>
          hm.1 s values hs h) fun values hvalues => ?_
        refine .bind (.mapM (Q := fun t => t.shape = body.shape ∧ body.shape.Fits t.fillings)
          values fun v hv => ?_) fun entries hentries => ?_
        · refine .bind (yields_holes hP owner (hs.bind binding (hvalues v hv)) body [] hm.2)
            fun fs hfs => ?_
          exact .pure ⟨rfl, hfs (.inl rfl)⟩
        · exact .pure fun _ => ⟨rfl, hentries.2⟩
  | .stream name binding body, before, hm => by
      unfold hole
      refine .bind (.modifyGet (Q := fun o => ∀ f : Stream.Flush, o = some f →
        ∀ i ∈ f.inserts, Good i.item) fun p hp => ?_) fun o ho => ?_
      · exact ⟨hP.take p name hp, fun f hf => hP.items p name f hp hf⟩
      · split
        · exact .pure fun _ => ⟨rfl, rfl, by simp⟩
        · next flush =>
            refine .bind (.mapM (Q := fun t => t.shape = body.shape ∧ body.shape.Fits t.fillings)
              flush.inserts fun i hi => ?_) fun entries hentries => ?_
            · refine .bind (.modify fun p hp => hP.draw p _ hp) fun _ _ => ?_
              -- an entry is rendered with its item and its key bound
              have hentry := (hs.bind binding (ho flush rfl i hi)).bind keyLocal (hP.keys i.key)
              refine .bind (yields_holes hP _ hentry body [] hm) fun fs hfs => ?_
              exact .pure ⟨rfl, hfs (.inl rfl)⟩
            · refine .pure fun _ => ⟨rfl, ?_, hentries.2⟩
              simpa [Stream.Flush.edits] using hentries.1
  | .component kind id props, before, hm => by
      unfold hole
      exact (yields_component hP hs hm).mono fun f hf _ => hf

theorem yields_branch (hP : Closed host.kinds Good P) (owner : Option StreamEntry) {s : Scope}
    (hs : s.All Good) {before : Option Tree} {chosen count : Nat} :
    ∀ (branches : Branches) (n : Nat), branches.Makes Good →
      Yields P (branch host owner s before chosen count branches n) fun t =>
        (∀ b, before = some b → b.Fits) → Shape.FitsAt branches.shapes n t
  | .none, n, _ => by
      unfold branch
      exact .throw _
  | .more t rest, 0, hm => by
      unfold branch
      refine .bind (.ofExcept (Q := fun kept => (∀ b, before = some b → b.Fits) →
        kept = [] ∨ t.shape.Fits kept) fun kept => fits_of_keptFillings) fun kept hkept => ?_
      refine .bind (yields_holes hP owner hs t kept hm.1) fun fs hfs => ?_
      exact .pure fun hb => ⟨rfl, hfs (hkept hb)⟩
  | .more t rest, n + 1, hm => by
      unfold branch
      exact yields_branch hP owner hs rest n hm.2

end

/-- **Rendering keeps what every hole keeps, and yields a tree that fits.** -/
theorem yields_template (hP : Closed host.kinds Good P) {s : Scope} (hs : s.All Good)
    {t : Template} (hm : t.Makes Good) (before : Option Tree) :
    Yields P (template host s t before) fun tree =>
      tree.shape = t.shape ∧ ((∀ b, before = some b → b.Fits) → tree.Fits) := by
  refine .bind (.ofExcept (Q := fun kept => (∀ b, before = some b → b.Fits) →
    kept = [] ∨ t.shape.Fits kept) fun kept => fits_of_keptFillings) fun kept hkept => ?_
  refine .bind (yields_holes hP none hs t kept hm) fun fs hfs => ?_
  exact .pure ⟨rfl, fun hb => hfs (hkept hb)⟩

end Pass

end ViewSync
