import ViewSync.Proofs.Pass.Course
import ViewSync.Proofs.Tree.Marks

/-!
# Renderings without failures

A rendering that goes well and leaves no failure behind takes a course in which every reference is
answered and nothing is noted. What happens in it, step by step, can be read off the tree: every
stream hole has taken what its stream had, if anything, every insert was rendered as an entry, and
every slot has the handle that a reference was answered with. Entries of a list that are kept are no
exception, since nothing of the kind is in them.
-/

namespace ViewSync.Pass

open ViewSync.Tree

/-- What happens to a pass in a rendering. -/
inductive Action where
  /-- The component of an id is referred to, and the answer is a handle. -/
  | refer (owner : Option StreamEntry) (id : String) (handle : Handle)
  /-- A stream hole takes what its stream has, if anything. -/
  | take (name : String) (flush : Option Stream.Flush)
  /-- A stream entry is rendered. -/
  | draw (entry : StreamEntry)

/-- What is left of it in a tree. -/
def Action.mark : Action → Mark
  | refer owner _ h => .slot owner h
  | take name flush => .hole name (flush.map Stream.Flush.edits)
  | draw e => .entry e

section Marks

variable {acts : List Action}

theorem slot_mem_marks {owner : Option StreamEntry} {h : Handle} :
    .slot owner h ∈ acts.map Action.mark ↔ ∃ id, .refer owner id h ∈ acts := by
  rw [List.mem_map]
  constructor
  · rintro ⟨a, ha, heq⟩
    cases a with
    | refer owner' id k =>
        obtain ⟨rfl, rfl⟩ := Mark.slot.inj heq
        exact ⟨id, ha⟩
    | take => cases heq
    | draw => cases heq
  · rintro ⟨id, hin⟩
    exact ⟨_, hin, rfl⟩

theorem entry_mem_marks {e : StreamEntry} : .entry e ∈ acts.map Action.mark ↔ .draw e ∈ acts := by
  rw [List.mem_map]
  constructor
  · rintro ⟨a, ha, heq⟩
    cases a with
    | draw e' =>
        obtain rfl := Mark.entry.inj heq
        exact ha
    | refer => cases heq
    | take => cases heq
  · exact fun hin => ⟨_, hin, rfl⟩

theorem hole_mem_marks {name : String} {e : StreamEdits} :
    .hole name (some e) ∈ acts.map Action.mark ↔ ∃ f, .take name (some f) ∈ acts ∧ f.edits = e := by
  rw [List.mem_map]
  constructor
  · rintro ⟨a, ha, heq⟩
    cases a with
    | take other flush =>
        obtain ⟨rfl, hflush⟩ := Mark.hole.inj heq
        obtain ⟨f, rfl, hf⟩ := Option.map_eq_some_iff.mp hflush
        exact ⟨f, ha, hf⟩
    | refer => cases heq
    | draw => cases heq
  · rintro ⟨f, hin, rfl⟩
    exact ⟨_, hin, rfl⟩

end Marks

/-- The steps from one state of a pass to another, where no reference fails. -/
inductive Smooth (kinds : Kinds) : Pass → List Action → Pass → Prop where
  | done (p : Pass) : Smooth kinds p [] p
  | refer {p q : Pass} {acts : List Action} (id : String) (kind : KindRef) (props : Fields)
      (owner : Option StreamEntry) {h : Handle} {changed : Bool} :
      (p.roster.refer kinds id kind props owner).1 = .ok (h, changed) →
      Smooth kinds { p with roster := (p.roster.refer kinds id kind props owner).2 } acts q →
      Smooth kinds p (.refer owner id h :: acts) q
  | take {p q : Pass} {acts : List Action} (name : String) :
      Smooth kinds { p with flushes := p.flushes.erase name } acts q →
      Smooth kinds p (.take name (p.flushes.get? name) :: acts) q
  | draw {p q : Pass} {acts : List Action} (e : StreamEntry) :
      Smooth kinds { p with roster := p.roster.noteDrawn e } acts q →
      Smooth kinds p (.draw e :: acts) q

/-- The flushes are those of the streams that they stand for. -/
def Named (p : Pass) : Prop := ∀ name f, p.flushes.get? name = some f → f.name = name

theorem Named.erase {p : Pass} (hp : p.Named) (name : String) :
    Named { p with flushes := p.flushes.erase name } := by
  intro k f hf
  rw [Keyed.get?_erase] at hf
  split at hf
  · cases hf
  · exact hp k f hf

/-- The flushes of the other streams. -/
def without (names : List String) (flushes : Keyed String Stream.Flush) :
    Keyed String Stream.Flush := flushes.filter (·.1 ∉ names)

theorem without_nil (flushes : Keyed String Stream.Flush) : without [] flushes = flushes := by
  simp [without]

theorem without_append (names names' : List String) (flushes : Keyed String Stream.Flush) :
    without (names ++ names') flushes = without names' (without names flushes) := by
  simp [without, List.filter_filter, Bool.and_comm]

theorem get?_without (names : List String) (flushes : Keyed String Stream.Flush) (name : String) :
    (without names flushes).get? name = if name ∈ names then none else flushes.get? name := by
  rw [without, Keyed.get?_filter_keys flushes (· ∉ names) name]
  by_cases hin : name ∈ names <;> simp [hin]

namespace Smooth

variable {kinds : Kinds} {p q : Pass} {acts : List Action}

theorem trans {q' : Pass} {acts' : List Action} (h : Smooth kinds p acts q)
    (h' : Smooth kinds q acts' q') : Smooth kinds p (acts ++ acts') q' := by
  induction h with
  | done p => exact h'
  | refer id kind props owner hok _ ih => exact .refer id kind props owner hok (ih h')
  | take name _ ih => exact .take name (ih h')
  | draw e _ ih => exact .draw e (ih h')

theorem named (h : Smooth kinds p acts q) (hp : p.Named) : q.Named := by
  induction h with
  | done p => exact hp
  | take name _ ih => exact ih (hp.erase name)
  | _ => rename_i ih; exact ih hp

/-- **What is left are the flushes of the streams without a hole.** -/
theorem flushes (h : Smooth kinds p acts q) :
    q.flushes = without ((acts.map Action.mark).filterMap Mark.stream?) p.flushes := by
  induction h with
  | done p => exact (without_nil p.flushes).symm
  | refer id kind props owner hok _ ih => exact ih
  | @take p q acts name _ ih =>
      have herase : p.flushes.erase name = without [name] p.flushes := by
        simp [Keyed.erase, without]
      rw [ih, herase, ← without_append]
      rfl
  | draw e _ ih => exact ih

/-- A hole takes nothing but what the stream had from the start. -/
theorem taken (h : Smooth kinds p acts q) {name : String} {f : Stream.Flush}
    (hin : .take name (some f) ∈ acts) : p.flushes.get? name = some f := by
  induction h with
  | done p => cases hin
  | refer id kind props owner hok _ ih =>
      exact ih ((List.mem_cons.mp hin).resolve_left Action.noConfusion)
  | @take p q acts other _ ih =>
      rcases List.mem_cons.mp hin with heq | hin
      · obtain ⟨rfl, hf⟩ := Action.take.inj heq
        exact hf.symm
      · have hf := ih hin
        rw [Keyed.get?_erase] at hf
        split at hf
        · cases hf
        · exact hf
  | draw e _ ih => exact ih ((List.mem_cons.mp hin).resolve_left Action.noConfusion)

end Smooth

/-! ## Steps and what they yield -/

variable {α β : Type} {kinds : Kinds}

/-- A step that goes well and leaves no failure behind has found none, and has taken a smooth
course. Its result goes together with what happened. -/
def Goes (kinds : Kinds) (x : PassM α) (Q : α → List Action → Prop) : Prop :=
  ∀ p a, (x.run p).1 = .ok a → (x.run p).2.errors = [] →
    p.errors = [] ∧ (p.Named → ∃ acts, Smooth kinds p acts (x.run p).2 ∧ Q a acts)

namespace Goes

variable {Q : α → List Action → Prop} {R : β → List Action → Prop}

theorem pure {a : α} (h : Q a []) : Goes kinds (pure a) Q := by
  rintro p _ ⟨⟩ herrors
  exact ⟨herrors, fun _ => ⟨[], .done p, h⟩⟩

theorem throw (e : Error) : Goes kinds (throw e : PassM α) Q := fun _ _ h => by cases h

/-- If both steps leave no failure behind, then so does the first. -/
theorem bind {x : PassM α} {f : α → PassM β} (hx : Goes kinds x Q)
    (hf : ∀ a, Goes kinds (f a) fun b acts' => ∀ acts, Q a acts → R b (acts ++ acts')) :
    Goes kinds (x >>= f) R := by
  intro p b hb herrors
  have hx := hx p
  rw [run_bind] at hb herrors ⊢
  cases h : x.run p with
  | mk r p' =>
      rw [h] at hb herrors hx
      cases r with
      | error e => cases hb
      | ok a =>
          obtain ⟨hmid, hsecond⟩ := hf a p' b hb herrors
          obtain ⟨hfirst, hcourse⟩ := hx a rfl hmid
          refine ⟨hfirst, fun hp => ?_⟩
          obtain ⟨acts, hacts, ha⟩ := hcourse hp
          obtain ⟨acts', hacts', hb⟩ := hsecond (hacts.named hp)
          exact ⟨acts ++ acts', hacts.trans hacts', hb acts ha⟩

/-- A callback comes first, and nothing happens in it. -/
theorem ofExcept_bind {x : Except Error α} {f : α → PassM β}
    (hf : ∀ a, x = .ok a → Goes kinds (f a) R) : Goes kinds (Pass.ofExcept x >>= f) R := by
  cases x with
  | error e => exact fun _ _ h => by cases h
  | ok a => exact hf a rfl

/-- The result is put together from that of the last step. -/
theorem bind_pure {x : PassM α} {g : α → β} (hx : Goes kinds x Q)
    (h : ∀ a acts, Q a acts → R (g a) acts) : Goes kinds (do return g (← x)) R := by
  refine bind hx fun a => pure fun acts ha => ?_
  rw [List.append_nil]
  exact h a acts ha

/-- Results of many steps go together with what happened in all of them. -/
theorem mapM {f : β → PassM α} {P : β → α → List Action → Prop}
    {S : List β → List α → List Action → Prop} (hnil : S [] [] [])
    (hcons : ∀ b bs a as acts acts', P b a acts → S bs as acts' →
      S (b :: bs) (a :: as) (acts ++ acts'))
    (l : List β) (h : ∀ b ∈ l, Goes kinds (f b) (P b)) : Goes kinds (l.mapM f) (S l) := by
  induction l with
  | nil => exact pure hnil
  | cons b l ih =>
      rw [List.mapM_cons]
      refine bind (h b List.mem_cons_self) fun a => ?_
      refine bind_pure (ih fun c hc => h c (List.mem_cons_of_mem _ hc)) fun as acts' has => ?_
      exact fun acts ha => hcons b l a as acts acts' ha has

end Goes

/-! ## Templates -/

/-- Marks recall actions when they are what these have left, in order. -/
def Recalls (ms : List Mark) (acts : List Action) : Prop := ms = acts.map Action.mark

theorem Recalls.append {ms ms' : List Mark} {acts acts' : List Action} (h : Recalls ms acts)
    (h' : Recalls ms' acts') : Recalls (ms ++ ms') (acts ++ acts') := by
  unfold Recalls at h h' ⊢
  rw [h, h', List.map_append]

variable {host : Host}

/-- Where a failure is caught it is noted, or goes on. -/
theorem errors_recover (e : Error) (p : Pass) {f : Filling}
    (hf : ((do
        if e.isFatal then throw e
        note e
        return Filling.text "" : PassM Filling).run p).1 = .ok f) :
    ((do
        if e.isFatal then throw e
        note e
        return Filling.text "" : PassM Filling).run p).2.errors ≠ [] := by
  by_cases he : e.isFatal = true
  · simp only [he] at hf
    cases hf
  · simp only [he]
    exact List.append_ne_nil_of_right_ne_nil p.errors (List.cons_ne_nil e [])

variable (host) in
/-- A reference that goes well leaves no failure behind. -/
theorem goes_component (owner : Option StreamEntry) (s : Scope) (kind : KindRef)
    (id : Callback String) (props : Callback Fields) :
    Goes host.kinds (component host owner s kind id props) fun f acts =>
      Recalls ((HoleShape.component kind.name).marks owner f) acts := by
  intro p f hf herrors
  unfold component at hf herrors ⊢
  rw [run_tryCatch, run_bind, run_refer] at hf herrors ⊢
  cases hid : id s with
  | error e =>
      simp only [hid] at hf herrors
      exact absurd herrors (errors_recover e p hf)
  | ok i =>
      cases hprops : props s with
      | error e =>
          simp only [hid, hprops] at hf herrors
          exact absurd herrors (errors_recover e p hf)
      | ok fields =>
          simp only [hid, hprops] at hf herrors ⊢
          cases hresult : (p.roster.refer host.kinds i kind fields owner).1 with
          | error e =>
              simp only [hresult] at hf herrors
              exact absurd herrors (errors_recover e _ hf)
          | ok answer =>
              obtain ⟨h, changed⟩ := answer
              simp only [hresult] at hf herrors ⊢
              obtain rfl := Except.ok.inj hf
              exact ⟨herrors, fun _ => ⟨[.refer owner i h], .refer i kind fields owner hresult
                (.done _), rfl⟩⟩

/-- An entry is the tree of a body. -/
theorem goes_entry {owner : Option StreamEntry} {body : Template} {x : PassM (List Filling)}
    (h : Goes host.kinds x fun gs acts =>
      Recalls (body.shape.marks owner gs) acts) :
    Goes host.kinds (do return Tree.mk body.shape (← x)) fun t acts =>
      Recalls (body.shape.marks owner t.fillings) acts :=
  .bind_pure h fun _ _ hgs => hgs

theorem goes_takeFlush (name : String) :
    Goes host.kinds (takeFlush name) fun o acts =>
      acts = [.take name o] ∧ ∀ f, o = some f → f.name = name := by
  rintro p _ ⟨⟩ herrors
  exact ⟨herrors, fun hp => ⟨_, .take name (.done _), rfl, fun f hf => hp name f hf⟩⟩

theorem goes_noteDrawn (e : StreamEntry) :
    Goes host.kinds (onRoster (·.noteDrawn e)) fun _ acts => acts = [.draw e] := by
  rintro p _ ⟨⟩ herrors
  exact ⟨herrors, fun _ => ⟨_, .draw e (.done _), rfl⟩⟩

/-- Entries of a list have the marks of all that happened in them. -/
theorem goes_entries {owner : Option StreamEntry} {body : Shape} {f : β → PassM Tree} (l : List β)
    (h : ∀ b ∈ l, Goes host.kinds (f b) fun t acts =>
      Recalls (body.marks owner t.fillings) acts) :
    Goes host.kinds (l.mapM f) fun ts acts =>
      Recalls (ts.flatMap fun t => body.marks owner t.fillings) acts :=
  .mapM (S := fun _ ts acts =>
    Recalls (ts.flatMap fun t => body.marks owner t.fillings) acts) rfl
    (fun _ _ _ _ _ _ ht hts => ht.append hts) l h

/-- So have the entries of a stream, each with the insert that it was rendered for. -/
theorem goes_inserts (name : String) (body : Shape) {f : Stream.Insert → PassM Tree}
    (l : List Stream.Insert)
    (h : ∀ i ∈ l, Goes host.kinds (f i) fun t acts =>
      Recalls (.entry ⟨name, i.key⟩ :: body.marks (some ⟨name, i.key⟩) t.fillings) acts) :
    Goes host.kinds (l.mapM f) fun ts acts =>
      Recalls (((l.map Stream.Insert.toPlacement).zip ts).flatMap fun e =>
        .entry ⟨name, e.1.key⟩ :: body.marks (some ⟨name, e.1.key⟩) e.2.fillings) acts :=
  .mapM (S := fun is ts acts =>
    Recalls (((is.map Stream.Insert.toPlacement).zip ts).flatMap fun e =>
      .entry ⟨name, e.1.key⟩ :: body.marks (some ⟨name, e.1.key⟩) e.2.fillings) acts) rfl
    (fun _ _ _ _ _ _ ht hts => ht.append hts) l h

mutual

theorem goes_holes (owner : Option StreamEntry) (s : Scope) :
    ∀ (t : Template) (before : List Filling), before = [] ∨ t.shape.Fits before →
      Goes host.kinds (holes host owner s t before) fun gs acts =>
        Recalls (t.shape.marks owner gs) acts
  | .text _, before, _ => by
      unfold holes
      exact .pure rfl
  | .hole _ h rest, before, hb => by
      have hfit : (∀ f, before.head? = some f → h.shape.Fits f) ∧
          (before.tail = [] ∨ rest.shape.Fits before.tail) := by
        cases before with
        | nil => exact ⟨fun f hf => (by cases hf), .inl rfl⟩
        | cons f gs =>
            obtain ⟨hf, hgs⟩ : h.shape.Fits f ∧ rest.shape.Fits gs := by
              simpa [Template.shape, Shape.Fits] using hb
            refine ⟨?_, .inr hgs⟩
            rintro _ ⟨⟩
            exact hf
      unfold holes
      refine .bind (goes_hole owner s h before.head? hfit.1) fun f => ?_
      refine .bind_pure (goes_holes owner s rest before.tail hfit.2) fun gs acts' hgs acts hf => ?_
      exact hf.append hgs

theorem goes_hole (owner : Option StreamEntry) (s : Scope) :
    ∀ (h : Hole) (before : Option Filling), (∀ f, before = some f → h.shape.Fits f) →
      Goes host.kinds (hole host owner s h before) fun f acts =>
        Recalls (h.shape.marks owner f) acts
  | .value reads eval, before, _ => by
      unfold hole
      split
      · exact .pure rfl
      · exact .ofExcept_bind fun v _ => .pure rfl
  | .choice reads choose branches, before, hb => by
      unfold hole
      refine .ofExcept_bind fun b _ => ?_
      split
      · exact .pure rfl
      · next i _ =>
          refine .bind_pure (goes_branch owner s branches i fun t ht => ?_) fun t acts ht => ht
          have hfit : (HoleShape.choice branches.shapes).Fits (.choice (some i) (some t)) :=
            hb _ (treeOfBranch_some ht)
          exact (Shape.fitsAt_iff.mp hfit).2
  | .loop reads items binding body, before, hb => by
      unfold hole
      split
      · next entries hkept =>
          -- entries are kept only where there is nothing to mark in them
          have hreads := reads_of_keptEntries hkept
          have hmarks : (HoleShape.loop body.shape).marks owner (.loop body.shape entries) = [] :=
            List.flatMap_eq_nil_iff.mpr fun t _ => body.marks_of_reads owner hreads t.fillings
          have hinert := inert_fitsHole (.loop (.paths []) items binding body)
            (Reads.join_ne_anything.mpr ⟨by simp, hreads⟩) _ (hb _ (of_keptEntries hkept).1)
          rw [forM_followTree hinert.1]
          exact .pure hmarks
      · refine .ofExcept_bind fun values _ => ?_
        exact .bind_pure (goes_entries values fun v _ =>
          goes_entry (goes_holes owner (s.bind binding v) body [] (.inl rfl)))
          fun entries acts hentries => hentries
  | .stream name binding body, before, _ => by
      unfold hole
      refine .bind (goes_takeFlush name) fun o => ?_
      cases o with
      | none =>
          refine .pure ?_
          rintro _ ⟨rfl, -⟩
          rfl
      | some flush =>
          refine .bind_pure (goes_inserts flush.name body.shape flush.inserts fun i _ => ?_) ?_
          · refine .bind (goes_noteDrawn ⟨flush.name, i.key⟩) fun _ => ?_
            refine .bind_pure (goes_holes _ _ body [] (.inl rfl)) fun gs acts' hgs acts hacts => ?_
            subst hacts
            exact congrArg (_ :: ·) hgs
          · -- the flush is that of the stream
            rintro ts acts' hts _ ⟨rfl, hname⟩
            rw [hname flush rfl] at hts
            exact congrArg (_ :: ·) hts
  | .component kind id props, before, _ => by
      unfold hole
      exact goes_component host owner s kind id props

theorem goes_branch (owner : Option StreamEntry) (s : Scope) {before : Option Tree}
    {chosen count : Nat} : ∀ (branches : Branches) (n : Nat), (∀ t, before = some t → t.Fits) →
      Goes host.kinds (branch host owner s before chosen count branches n) fun t acts =>
        Recalls (Shape.marksAt owner branches.shapes n t) acts
  | .none, n, _ => by
      unfold branch
      exact .throw _
  | .more t rest, 0, hb => by
      unfold branch
      refine .ofExcept_bind fun kept hkept => ?_
      exact goes_entry (goes_holes owner s t kept (fits_of_keptFillings hkept hb))
  | .more t rest, n + 1, hb => by
      unfold branch
      exact goes_branch owner s rest n hb

end

variable (host) in
/-- **The marks of a tree tell what happened in its rendering**, where no failure was left, if the
tree before fits. -/
theorem goes_template (s : Scope) (t : Template) {before : Option Tree}
    (hb : ∀ b, before = some b → b.Fits) :
    Goes host.kinds (template host s t before) fun tree acts => Recalls tree.marks acts := by
  refine .ofExcept_bind fun kept hkept => ?_
  exact .bind_pure (goes_holes none s t kept (fits_of_keptFillings hkept hb))
    fun gs acts hgs => hgs

end ViewSync.Pass
