import ViewSync.Proofs.Pass.Keeping
import ViewSync.Proofs.Tree.Edits
import ViewSync.Proofs.Tree.Handles

/-!
# The course of a rendering

Rendering a template changes what a pass writes to step by step, and what it yields can be read off
the steps: the tree has the references as they were answered, in their order, and
has the edits of the flushes that were taken. A step that fails has taken a course as well, though
nothing is left of it in a tree.
-/

namespace ViewSync.Pass

/-- The steps from one state of a pass to another, with the answers to references and the
flushes that were taken. -/
inductive Course (kinds : Kinds) :
    Pass → Refs → List (String × Stream.Flush) → Pass → Prop where
  | done (p : Pass) : Course kinds p [] [] p
  | refer {p q : Pass} {rs : Refs} {fs : List (String × Stream.Flush)} (id : String)
      (kind : KindRef) (props : Fields) (owner : Option StreamEntry) {h : Handle} {changed : Bool} :
      (p.roster.refer kinds id kind props owner).1 = .ok (h, changed) →
      Course kinds { p with roster := (p.roster.refer kinds id kind props owner).2 } rs fs q →
      Course kinds p ((h, changed) :: rs) fs q
  | refuse {p q : Pass} {rs : Refs} {fs : List (String × Stream.Flush)} (id : String)
      (kind : KindRef) (props : Fields) (owner : Option StreamEntry) {e : Error} :
      (p.roster.refer kinds id kind props owner).1 = .error e →
      Course kinds { p with roster := (p.roster.refer kinds id kind props owner).2 } rs fs q →
      Course kinds p rs fs q
  | draw {p q : Pass} {rs : Refs} {fs : List (String × Stream.Flush)} (e : StreamEntry) :
      Course kinds { p with roster := p.roster.noteDrawn e } rs fs q → Course kinds p rs fs q
  | take {p q : Pass} {rs : Refs} {fs : List (String × Stream.Flush)} {name : String}
      {f : Stream.Flush} : p.flushes.get? name = some f →
      Course kinds { p with flushes := p.flushes.erase name } rs fs q →
      Course kinds p rs ((name, f) :: fs) q
  | note {p q : Pass} {rs : Refs} {fs : List (String × Stream.Flush)} (e : Error) :
      Course kinds { p with errors := p.errors ++ [e] } rs fs q → Course kinds p rs fs q

namespace Course

variable {kinds : Kinds} {p q : Pass} {rs : Refs} {fs : List (String × Stream.Flush)}

theorem trans {q' : Pass} {rs' : Refs} {fs' : List (String × Stream.Flush)}
    (h : Course kinds p rs fs q) (h' : Course kinds q rs' fs' q') :
    Course kinds p (rs ++ rs') (fs ++ fs') q' := by
  induction h with
  | done p => exact h'
  | refer id kind props owner hok _ ih => exact .refer id kind props owner hok (ih h')
  | refuse id kind props owner herr _ ih => exact .refuse id kind props owner herr (ih h')
  | draw e _ ih => exact .draw e (ih h')
  | take hget _ ih => exact .take hget (ih h')
  | note e _ ih => exact .note e (ih h')

/-- What everything that a hole does keeps is kept along a course. -/
theorem keeps {P : Pass → Prop} (hP : Closed kinds (fun _ => True) P)
    (h : Course kinds p rs fs q) (hp : P p) : P q := by
  induction h with
  | done p => exact hp
  | @refer p _ _ _ id kind props owner _ _ _ _ ih =>
      exact ih (hP.refer p id kind props owner hp fun _ _ => trivial)
  | @refuse p _ _ _ id kind props owner _ _ _ ih =>
      exact ih (hP.refer p id kind props owner hp fun _ _ => trivial)
  | @draw p _ _ _ e _ ih => exact ih (hP.draw p e hp)
  | @take p _ _ _ name _ _ _ ih => exact ih (hP.take p name hp)
  | @note p _ _ _ e _ ih => exact ih (hP.note p e hp)

/-- **What is taken and what is left are what there was to take.** -/
theorem flushes_perm (h : Course kinds p rs fs q) (hnd : (p.flushes.map Prod.fst).Nodup) :
    (fs ++ q.flushes).Perm p.flushes := by
  induction h with
  | done p => exact .refl _
  | refer id kind props owner hok _ ih => exact ih hnd
  | refuse id kind props owner herr _ ih => exact ih hnd
  | draw e _ ih => exact ih hnd
  | note e _ ih => exact ih hnd
  | @take p q _ fs name f hget _ ih =>
      have hsub : ((p.flushes.erase name).map Prod.fst).Nodup :=
        hnd.sublist (List.filter_sublist.map Prod.fst)
      exact ((ih hsub).cons (name, f)).trans (Keyed.perm_cons_erase hnd hget)

end Course

/-! ## Steps and what they yield -/

/-- The edits of flushes that were taken. -/
def editsTaken (fs : List (String × Stream.Flush)) : List StreamEdits := fs.map fun e => e.2.edits

variable {α β : Type} {kinds : Kinds}

/-- A step takes a course, and its results go together with what happened on the way. -/
def Runs (kinds : Kinds) (x : PassM α) (Q : α → Refs → List (String × Stream.Flush) → Prop) :
    Prop :=
  ∀ p, ∃ rs fs, Course kinds p rs fs (x.run p).2 ∧ ∀ a, (x.run p).1 = .ok a → Q a rs fs

namespace Runs

variable {Q : α → Refs → List (String × Stream.Flush) → Prop}
variable {R : β → Refs → List (String × Stream.Flush) → Prop}

theorem pure {a : α} (h : Q a [] []) : Runs kinds (pure a) Q := by
  intro p
  refine ⟨[], [], .done p, fun b hb => ?_⟩
  obtain rfl : a = b := Except.ok.inj hb
  exact h

theorem throw (e : Error) : Runs kinds (throw e : PassM α) Q :=
  fun p => ⟨[], [], .done p, fun _ h => by cases h⟩

theorem ofExcept {x : Except Error α} (h : ∀ a, x = .ok a → Q a [] []) :
    Runs kinds (ofExcept x) Q :=
  fun p => ⟨[], [], .done p, h⟩

theorem bind {x : PassM α} {f : α → PassM β} (hx : Runs kinds x Q)
    (hf : ∀ a rs fs, Q a rs fs →
      Runs kinds (f a) fun b rs' fs' => R b (rs ++ rs') (fs ++ fs')) :
    Runs kinds (x >>= f) R := by
  intro p
  obtain ⟨rs, fs, hcourse, hres⟩ := hx p
  rw [run_bind]
  cases h : x.run p with
  | mk r p' =>
      rw [h] at hcourse hres
      cases r with
      | ok a =>
          obtain ⟨rs', fs', hcourse', hres'⟩ := hf a rs fs (hres a rfl) p'
          exact ⟨rs ++ rs', fs ++ fs', hcourse.trans hcourse', hres'⟩
      | error e => exact ⟨rs, fs, hcourse, fun _ h => by cases h⟩

/-- A callback comes first, and takes no steps. -/
theorem ofExcept_bind {x : Except Error α} {f : α → PassM β}
    (hf : ∀ a, x = .ok a → Runs kinds (f a) R) : Runs kinds (Pass.ofExcept x >>= f) R := by
  refine bind (.ofExcept (Q := fun a rs fs => x = .ok a ∧ rs = [] ∧ fs = [])
    fun a ha => ⟨ha, rfl, rfl⟩) ?_
  rintro a _ _ ⟨ha, rfl, rfl⟩
  exact hf a ha

/-- Results of many steps go together with what happened in all of them. -/
theorem mapM {f : β → PassM α} {Qs : List α → Refs → List (String × Stream.Flush) → Prop}
    (hnil : Qs [] [] [])
    (hcons : ∀ a as rs fs rs' fs', Q a rs fs → Qs as rs' fs' →
      Qs (a :: as) (rs ++ rs') (fs ++ fs'))
    (l : List β) (h : ∀ b ∈ l, Runs kinds (f b) Q) : Runs kinds (l.mapM f) Qs := by
  induction l with
  | nil => exact pure hnil
  | cons b l ih =>
      rw [List.mapM_cons]
      refine bind (h b List.mem_cons_self) fun a rs fs ha => ?_
      refine bind (ih fun c hc => h c (List.mem_cons_of_mem _ hc)) fun as rs' fs' has => ?_
      refine pure ?_
      simpa using hcons a as rs fs rs' fs' ha has

end Runs

/-! ## Templates -/

open ViewSync.Tree

/-- What was yielded has the references that were answered, and the edits that were taken. -/
structure Tells (refs : Refs) (edits : List StreamEdits) (rs : Refs)
    (fs : List (String × Stream.Flush)) : Prop where
  /-- The references are those that were answered. -/
  refs : refs = rs
  /-- The edits are those of the flushes that were taken. -/
  edits : edits = editsTaken fs

theorem Tells.nil : Tells [] [] [] [] := ⟨rfl, rfl⟩

theorem Tells.append {refs refs' rs rs' : Refs} {edits edits' : List StreamEdits}
    {fs fs' : List (String × Stream.Flush)} (h : Tells refs edits rs fs)
    (h' : Tells refs' edits' rs' fs') :
    Tells (refs ++ refs') (edits ++ edits') (rs ++ rs') (fs ++ fs') where
  refs := by rw [h.refs, h'.refs]
  edits := by rw [h.edits, h'.edits, editsTaken, editsTaken, editsTaken, List.map_append]

/-- A tree refers to the handles that references were answered with. -/
theorem Tells.handles {t : Tree} {rs : Refs} {fs : List (String × Stream.Flush)}
    (h : Tells t.refs t.edits rs fs) : t.handles = rs.map Prod.fst := by
  rw [← Tree.map_refs, h.refs]

variable {host : Host}

theorem run_refer (owner : Option StreamEntry) (s : Scope) (kind : KindRef) (id : Callback String)
    (props : Callback Fields) (p : Pass) :
    (refer host owner s kind id props).run p =
      match id s, props s with
      | .ok i, .ok fields =>
        ((p.roster.refer host.kinds i kind fields owner).1,
          { p with roster := (p.roster.refer host.kinds i kind fields owner).2 })
      | .ok _, .error e => (.error e, p)
      | .error e, _ => (.error e, p) := by
  unfold refer
  cases id s with
  | error e => rfl
  | ok i =>
      cases props s with
      | error e => rfl
      | ok fields => rfl

variable (host) in
/-- What a component hole does about a failure. -/
theorem runs_recover (e : Error) :
    Runs host.kinds (do
        if e.isFatal then throw e
        note e
        return Filling.text "" : PassM Filling) fun f rs fs =>
      Tells (refsOf f) (editsOf f) rs fs := by
  intro p
  split
  · exact ⟨[], [], .done p, fun _ h => by cases h⟩
  · refine ⟨[], [], .note e (.done _), fun f hf => ?_⟩
    obtain rfl := Except.ok.inj hf
    exact .nil

/-- A reference that fails leaves no handle behind, whether the failure is noted or not. -/
theorem runs_component (owner : Option StreamEntry) (s : Scope) (kind : KindRef)
    (id : Callback String) (props : Callback Fields) :
    Runs host.kinds (component host owner s kind id props) fun f rs fs =>
      Tells (refsOf f) (editsOf f) rs fs := by
  intro p
  unfold component
  rw [run_tryCatch, run_bind, run_refer]
  cases id s with
  | error e => exact runs_recover host e p
  | ok i =>
      cases props s with
      | error e => exact runs_recover host e p
      | ok fields =>
          cases hresult : (p.roster.refer host.kinds i kind fields owner).1 with
          | error e =>
              dsimp only
              rw [hresult]
              obtain ⟨rs, fs, hcourse, hres⟩ := runs_recover host e
                { p with roster := (p.roster.refer host.kinds i kind fields owner).2 }
              exact ⟨rs, fs, .refuse i kind fields owner hresult hcourse, hres⟩
          | ok r =>
              obtain ⟨h, changed⟩ := r
              dsimp only
              rw [hresult]
              refine ⟨[(h, changed)], [], .refer i kind fields owner hresult (.done _),
                fun f hf => ?_⟩
              obtain rfl := Except.ok.inj hf
              exact ⟨rfl, rfl⟩

mutual

/-- Where a template says what it reads, nothing in it refers to components or streams. -/
theorem inert_fits : ∀ t : Template, t.reads ≠ .anything → ∀ fs : List Filling, t.shape.Fits fs →
    handlesOfEach fs = [] ∧ editsOfEach fs = []
  | .text _, _, fs, hfits => by
      obtain rfl : fs = [] := by simpa [Template.shape, Shape.Fits] using hfits
      exact ⟨rfl, rfl⟩
  | .hole _ h rest, hr, fs, hfits => by
      obtain ⟨hone, hrest⟩ := Template.reads_hole_ne.mp hr
      cases fs with
      | nil => exact absurd hfits (by simp [Template.shape, Shape.Fits])
      | cons f fs =>
          obtain ⟨hf, hfs⟩ : h.shape.Fits f ∧ rest.shape.Fits fs := by
            simpa [Template.shape, Shape.Fits] using hfits
          obtain ⟨hhandles, hedits⟩ := inert_fitsHole h hone f hf
          obtain ⟨hhandles', hedits'⟩ := inert_fits rest hrest fs hfs
          exact ⟨by rw [handlesOfEach, hhandles, hhandles', List.nil_append],
            by rw [editsOfEach, hedits, hedits', List.nil_append]⟩

theorem inert_fitsHole : ∀ h : Hole, h.reads ≠ .anything → ∀ f : Filling, h.shape.Fits f →
    handlesOf f = [] ∧ editsOf f = []
  | .value .., _, .text _, _ => ⟨rfl, rfl⟩
  | .choice .., _, .choice none none, _ => ⟨rfl, rfl⟩
  | .choice _ _ branches, hr, .choice (some i) (some t), hfits => by
      obtain ⟨-, hbranches⟩ := Reads.joinAll_ne_anything.mp hr
      exact inert_fitsBranch branches hbranches i t hfits
  | .loop _ _ _ body, hr, .loop _ entries, hfits => by
      obtain ⟨-, hbody⟩ := Reads.join_ne_anything.mp hr
      have hnone (t : Tree) (ht : t ∈ entries) : t.handles = [] ∧ t.edits = [] := by
        obtain ⟨shape, fs⟩ := t
        exact inert_fits body hbody fs (hfits.2 _ ht).2
      refine ⟨handlesOfTrees_eq_nil.mpr fun t ht => (hnone t ht).1, ?_⟩
      change editsOfTrees entries = []
      rw [editsOfTrees_eq_flatMap, List.flatMap_eq_nil_iff]
      exact fun t ht => (hnone t ht).2
  | .stream .., hr, _, _ => absurd rfl hr
  | .component .., hr, _, _ => absurd rfl hr

theorem inert_fitsBranch : ∀ bs : Branches, (∀ q ∈ bs.reads, q ≠ .anything) →
    ∀ (i : Nat) (t : Tree), Shape.FitsAt bs.shapes i t → t.handles = [] ∧ t.edits = []
  | .more t _, hr, 0, .mk _ fs, hfits => inert_fits t (hr _ List.mem_cons_self) fs hfits.2
  | .more _ rest, hr, n + 1, t, hfits =>
      inert_fitsBranch rest (fun q hq => hr q (List.mem_cons_of_mem _ hq)) n t hfits

end

theorem reads_of_keptEntries {s : Scope} {reads : Reads} {body : Template} {before : Option Filling}
    {entries : List Tree} (h : keptEntries host s reads body before = some entries) :
    body.reads ≠ .anything := by
  intro hany
  have hintact := (of_keptEntries h).2.2
  rw [hany] at hintact
  cases hintact

theorem runs_takeFlush (name : String) :
    Runs host.kinds (takeFlush name) fun o rs fs =>
      rs = [] ∧ fs = (o.map fun f => (name, f)).toList := by
  intro p
  change ∃ rs fs, Course host.kinds p rs fs { p with flushes := p.flushes.erase name } ∧
    ∀ o, Except.ok (p.flushes.get? name) = .ok o → _
  cases hget : p.flushes.get? name with
  | some f => 
      refine ⟨[], [(name, f)], .take hget (.done _), fun o ho => ?_⟩
      obtain rfl := Except.ok.inj ho
      exact ⟨rfl, rfl⟩
  | none =>
      rw [Keyed.erase_of_get?_eq_none hget]
      refine ⟨[], [], .done p, fun o ho => ?_⟩
      obtain rfl := Except.ok.inj ho
      exact ⟨rfl, rfl⟩

theorem runs_noteDrawn (e : StreamEntry) :
    Runs host.kinds (onRoster (·.noteDrawn e)) fun _ rs fs => rs = [] ∧ fs = [] :=
  fun _ => ⟨[], [], .draw e (.done _), fun _ _ => ⟨rfl, rfl⟩⟩

/-- An entry is the tree of a body. -/
theorem runs_entry {body : Shape} {x : PassM (List Filling)}
    (h : Runs host.kinds x fun gs rs fs => Tells (refsOfEach gs) (editsOfEach gs) rs fs) :
    Runs host.kinds (do return Tree.mk body (← x)) fun t rs fs =>
      Tells t.refs t.edits rs fs := by
  refine .bind h fun gs rs fs hgs => .pure ?_
  rw [List.append_nil, List.append_nil]
  exact hgs

theorem runs_entries {f : β → PassM Tree} (l : List β)
    (h : ∀ b ∈ l, Runs host.kinds (f b) fun t rs fs => Tells t.refs t.edits rs fs) :
    Runs host.kinds (l.mapM f) fun ts rs fs => Tells (refsOfTrees ts) (editsOfTrees ts) rs fs :=
  .mapM .nil (fun _ _ _ _ _ _ ht hts => ht.append hts) l h

mutual

theorem runs_holes (owner : Option StreamEntry) (s : Scope) :
    ∀ (t : Template) (before : List Filling), before = [] ∨ t.shape.Fits before →
      Runs host.kinds (holes host owner s t before) fun gs rs fs =>
        Tells (refsOfEach gs) (editsOfEach gs) rs fs
  | .text _, before, _ => by
      unfold holes
      exact .pure .nil
  | .hole _ h rest, before, hb => by
      have hfit : (∀ f, before.head? = some f → h.shape.Fits f) ∧
          (before.tail = [] ∨ rest.shape.Fits before.tail) := by
        cases before with
        | nil => exact ⟨fun f hf => (by cases hf), .inl rfl⟩
        | cons f gs =>
            obtain ⟨hf, hgs⟩ : h.shape.Fits f ∧ rest.shape.Fits gs := by
              simpa [Template.shape, Shape.Fits] using hb
            refine ⟨?_, .inr hgs⟩
            rintro _ ⟨⟩
            exact hf
      unfold holes
      refine .bind (runs_hole owner s h before.head? hfit.1) fun f rs fs hf => ?_
      refine .bind (runs_holes owner s rest before.tail hfit.2) fun gs rs' fs' hgs => ?_
      refine .pure ?_
      rw [List.append_nil, List.append_nil]
      exact hf.append hgs

theorem runs_hole (owner : Option StreamEntry) (s : Scope) :
    ∀ (h : Hole) (before : Option Filling), (∀ f, before = some f → h.shape.Fits f) →
      Runs host.kinds (hole host owner s h before) fun f rs fs =>
        Tells (refsOf f) (editsOf f) rs fs
  | .value reads eval, before, _ => by
      unfold hole
      split
      · exact .pure .nil
      · exact .ofExcept_bind fun v _ => .pure .nil
  | .choice reads choose branches, before, hb => by
      unfold hole
      refine .ofExcept_bind fun b _ => ?_
      split
      · exact .pure .nil
      · next i _ =>
          refine .bind (runs_branch owner s branches i fun t ht => ?_) fun t rs fs ht => ?_
          · have hfit : (HoleShape.choice branches.shapes).Fits (.choice (some i) (some t)) :=
              hb _ (treeOfBranch_some ht)
            exact (Shape.fitsAt_iff.mp hfit).2
          · refine .pure ?_
            rw [List.append_nil, List.append_nil]
            exact ht
  | .loop reads items binding body, before, hb => by
      unfold hole
      split
      · next entries hkept =>
          -- entries are kept only where there is nothing to follow in them
          have hfit := hb _ (of_keptEntries hkept).1
          have hinert := inert_fitsHole (.loop (.paths []) items binding body) ?_ _ hfit
          · rw [forM_followTree (hinert.1)]
            exact .pure ⟨refsOf_eq_nil hinert.1, hinert.2⟩
          · exact Reads.join_ne_anything.mpr ⟨by simp, reads_of_keptEntries hkept⟩
      · refine .ofExcept_bind fun values _ => ?_
        refine .bind (runs_entries values fun v _ => ?_) fun entries rs fs hentries => ?_
        · exact runs_entry (runs_holes owner (s.bind binding v) body [] (.inl rfl))
        · refine .pure ?_
          rw [List.append_nil, List.append_nil]
          exact hentries
  | .stream name binding body, before, _ => by
      unfold hole
      refine .bind (runs_takeFlush name) fun o rs fs ho => ?_
      cases o with
      | none =>
          obtain ⟨rfl, rfl⟩ := ho
          exact .pure .nil
      | some flush =>
          obtain ⟨rfl, rfl⟩ := ho
          refine .bind (runs_entries flush.inserts fun i _ => ?_) fun entries rs fs hentries => ?_
          · refine .bind (runs_noteDrawn ⟨flush.name, i.key⟩) ?_
            rintro _ _ _ ⟨rfl, rfl⟩
            exact runs_entry (runs_holes _ _ body [] (.inl rfl))
          · refine .pure ?_
            rw [List.append_nil, List.append_nil]
            exact ⟨hentries.refs, congrArg (flush.edits :: ·) hentries.edits⟩
  | .component kind id props, before, _ => by
      unfold hole
      exact runs_component owner s kind id props

theorem runs_branch (owner : Option StreamEntry) (s : Scope) {before : Option Tree}
    {chosen count : Nat} : ∀ (branches : Branches) (n : Nat), (∀ t, before = some t → t.Fits) →
      Runs host.kinds (branch host owner s before chosen count branches n) fun t rs fs =>
        Tells t.refs t.edits rs fs
  | .none, n, _ => by
      unfold branch
      exact .throw _
  | .more t rest, 0, hb => by
      unfold branch
      refine .ofExcept_bind fun kept hkept => ?_
      refine .bind (runs_holes owner s t kept (fits_of_keptFillings hkept hb))
        fun gs rs fs hgs => ?_
      refine .pure ?_
      rw [List.append_nil, List.append_nil]
      exact hgs
  | .more t rest, n + 1, hb => by
      unfold branch
      exact runs_branch owner s rest n hb

end

variable (host) in
/-- **What a rendering yields can be read off its course**, if the tree before fits. -/
theorem runs_template (s : Scope) (t : Template) {before : Option Tree}
    (hb : ∀ b, before = some b → b.Fits) :
    Runs host.kinds (template host s t before) fun tree rs fs =>
      Tells tree.refs tree.edits rs fs := by
  refine .ofExcept_bind fun kept hkept => ?_
  exact runs_entry (runs_holes none s t kept (fits_of_keptFillings hkept hb))

end ViewSync.Pass
