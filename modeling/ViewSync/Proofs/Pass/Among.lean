import ViewSync.Proofs.Template.Filled
import ViewSync.Proofs.Pass.Reuse

/-!
# Rendering with some kinds only

Rendering a template refers to components of the kinds that are in the template, and to no others.
So an invariant of the roster needs to be kept by references to these kinds alone. The failures of
rendering are those of callbacks, of references, of choices that are not there, and of trees that do
not fit.
-/

namespace ViewSync

/-! ## Failures of callbacks -/

/-- Every failure of a callback has a property. -/
def Callback.FailsIn {α : Type} (E : Error → Prop) (f : Callback α) : Prop :=
  ∀ s e, f s = .error e → E e

mutual

/-- Every failure of a callback in a template has a property. -/
def Template.FailsIn (E : Error → Prop) : Template → Prop
  | .text _ => True
  | .hole _ h rest => h.FailsIn E ∧ rest.FailsIn E

/-- The same of the callbacks in a hole. -/
def Hole.FailsIn (E : Error → Prop) : Hole → Prop
  | .value _ eval => Callback.FailsIn E eval
  | .choice _ choose branches => Callback.FailsIn E choose ∧ branches.FailsIn E
  | .loop _ items _ body => Callback.FailsIn E items ∧ body.FailsIn E
  | .stream _ _ body => body.FailsIn E
  | .component _ id props => Callback.FailsIn E id ∧ Callback.FailsIn E props

/-- The same of the callbacks in some branches. -/
def Branches.FailsIn (E : Error → Prop) : Branches → Prop
  | .none => True
  | .more t rest => t.FailsIn E ∧ rest.FailsIn E

end

mutual

theorem Template.failsIn_true : ∀ t : Template, t.FailsIn fun _ => True
  | .text _ => trivial
  | .hole _ h rest => ⟨h.failsIn_true, rest.failsIn_true⟩

theorem Hole.failsIn_true : ∀ h : Hole, h.FailsIn fun _ => True
  | .value .. => fun _ _ _ => trivial
  | .choice _ _ branches => ⟨fun _ _ _ => trivial, branches.failsIn_true⟩
  | .loop _ _ _ body => ⟨fun _ _ _ => trivial, body.failsIn_true⟩
  | .stream _ _ body => body.failsIn_true
  | .component .. => ⟨fun _ _ _ => trivial, fun _ _ _ => trivial⟩

theorem Branches.failsIn_true : ∀ b : Branches, b.FailsIn fun _ => True
  | .none => trivial
  | .more t rest => ⟨t.failsIn_true, rest.failsIn_true⟩

end

/-- No failure of a kind of component is beyond recovery. -/
structure Kind.Recovers (k : Kind) : Prop where
  /-- Mounting fails in a way that a pass recovers from. -/
  mount : ∀ a e, k.mount a = .error e → e.isFatal = false
  /-- So does taking in props. -/
  update : ∀ props a e, (k.update props a).2 = some e → e.isFatal = false
  /-- So does rendering. -/
  render : ∀ a, (k.render a).FailsIn (·.isFatal = false)

/-- Every failure of a kind of component has a property. -/
structure Kind.FailsIn (E : Error → Prop) (k : Kind) : Prop where
  /-- Failures to mount have it. -/
  mount : ∀ a e, k.mount a = .error e → E e
  /-- Failures to take in props have it. -/
  update : ∀ props a e, (k.update props a).2 = some e → E e
  /-- Failures to render have it. -/
  render : ∀ a, (k.render a).FailsIn E

/-- Whatever the failures are. -/
theorem Kind.failsIn_true (k : Kind) : k.FailsIn fun _ => True :=
  ⟨fun _ _ _ => trivial, fun _ _ _ _ => trivial, fun a => (k.render a).failsIn_true⟩

theorem Kind.Recovers.failsIn {k : Kind} (h : k.Recovers) : k.FailsIn (·.isFatal = false) :=
  ⟨h.mount, h.update, h.render⟩

namespace Pass

variable {α β : Type} {I : Roster → Prop} {E : Error → Prop}

/-! ## Steps that keep and fail -/

/-- A step keeps an invariant of the roster, and its failures have a property. -/
def Minds (I : Roster → Prop) (E : Error → Prop) (x : PassM α) : Prop :=
  ∀ p, I p.roster → I (x.run p).2.roster ∧ ∀ e, (x.run p).1 = .error e → E e

namespace Minds

theorem pure (a : α) : Minds I E (pure a : PassM α) :=
  fun _ hp => ⟨hp, fun _ h => by cases h⟩

theorem throw {e : Error} (h : E e) : Minds I E (throw e : PassM α) :=
  fun _ hp => ⟨hp, fun _ he => Except.error.inj he ▸ h⟩

theorem bind {x : PassM α} {f : α → PassM β} (hx : Minds I E x) (hf : ∀ a, Minds I E (f a)) :
    Minds I E (x >>= f) := by
  intro p hp
  obtain ⟨hkeep, herr⟩ := hx p hp
  rw [run_bind]
  cases h : x.run p with
  | mk r p' =>
      rw [h] at hkeep herr
      cases r with
      | ok a => exact hf a p' hkeep
      | error e =>
          refine ⟨hkeep, fun e' he' => herr e' ?_⟩
          exact congrArg Except.error (Except.error.inj he')

theorem ofExcept_bind {x : Except Error α} {f : α → PassM β} (hx : ∀ e, x = .error e → E e)
    (hf : ∀ a, x = .ok a → Minds I E (f a)) : Minds I E (Pass.ofExcept x >>= f) := by
  cases x with
  | error e => exact fun _ hp => ⟨hp, fun e' he' => Except.error.inj he' ▸ hx e rfl⟩
  | ok a => exact hf a rfl

/-- A failure that is caught is passed on, or noted. -/
theorem tryCatch {x : PassM α} {f : Error → PassM α} (hx : Minds I E x)
    (hf : ∀ e, E e → Minds I E (f e)) : Minds I E (tryCatch x f) := by
  intro p hp
  obtain ⟨hkeep, herr⟩ := hx p hp
  rw [run_tryCatch]
  cases h : x.run p with
  | mk r p' =>
      rw [h] at hkeep herr
      cases r with
      | ok a => exact ⟨hkeep, herr⟩
      | error e => exact hf e (herr e rfl) p' hkeep

theorem modifyGet {f : Pass → α × Pass} (h : ∀ p, I p.roster → I (f p).2.roster) :
    Minds I E (modifyGet f : PassM α) :=
  fun p hp => ⟨h p hp, fun _ he => by cases he⟩

theorem modify {f : Pass → Pass} (h : ∀ p, I p.roster → I (f p).roster) :
    Minds I E (modify f : PassM PUnit) := modifyGet h

theorem forM {f : β → PassM PUnit} (l : List β) (h : ∀ b, Minds I E (f b)) :
    Minds I E (l.forM f) := by
  induction l with
  | nil => exact pure PUnit.unit
  | cons b l ih => exact bind (h b) fun _ => ih

theorem mapM {f : β → PassM α} (l : List β) (h : ∀ b, Minds I E (f b)) :
    Minds I E (l.mapM f) := by
  induction l with
  | nil => exact pure []
  | cons b l ih =>
      rw [List.mapM_cons]
      exact bind (h b) fun a => bind ih fun as => pure (a :: as)

end Minds

/-! ## Rendering -/

/-- What keeps an invariant of rosters through the rendering of templates that refer to certain
kinds only, where failures have a property. -/
structure Among (kinds : Kinds) (Used : KindRef → Prop) (E : Error → Prop) (I : Roster → Prop) :
    Prop where
  /-- A reference to one of the kinds keeps the invariant. -/
  refer : ∀ r id kind props owner, Used kind → I r → I (r.refer kinds id kind props owner).2
  /-- A reference that fails has such a failure. -/
  refused : ∀ r id kind props owner e, Used kind → I r →
    (r.refer kinds id kind props owner).1 = .error e → E e
  /-- Following a tree keeps the invariant. -/
  follow : ∀ r t, I r → I (r.followTree t)
  /-- So does noting that an entry was drawn. -/
  draw : ∀ r e, I r → I (r.noteDrawn e)
  /-- Choosing a branch that is not there is such a failure. -/
  noSuchChoice : ∀ i n, E (.noSuchChoice i n)

variable {host : Host} {Used : KindRef → Prop}

theorem minds_refer (hI : Among host.kinds Used E I) {owner : Option StreamEntry} (s : Scope)
    {kind : KindRef} (hkind : Used kind) {id : Callback String} {props : Callback Fields}
    (hid : Callback.FailsIn E id) (hprops : Callback.FailsIn E props) :
    Minds I E (refer host owner s kind id props) := by
  refine .ofExcept_bind (hid s) fun i _ => .ofExcept_bind (hprops s) fun fields _ => ?_
  -- the reference and its outcome are one step
  intro p hp
  exact ⟨hI.refer p.roster i kind fields owner hkind hp,
    fun e => hI.refused p.roster i kind fields owner e hkind hp⟩

theorem minds_component (hI : Among host.kinds Used E I) {owner : Option StreamEntry} (s : Scope)
    {kind : KindRef} (hkind : Used kind) {id : Callback String} {props : Callback Fields}
    (hid : Callback.FailsIn E id) (hprops : Callback.FailsIn E props) :
    Minds I E (component host owner s kind id props) := by
  refine .tryCatch (.bind (minds_refer hI s hkind hid hprops) fun r => .pure _) fun e he => ?_
  split
  · exact .bind (.throw he) fun _ => .bind (.modify fun _ hp => hp) fun _ => .pure _
  · exact .bind (.pure _) fun _ => .bind (.modify fun _ hp => hp) fun _ => .pure _

/-- A tree that fits does not fail a template. -/
theorem minds_keptFillings (t : Template) {before : Option Tree}
    (hbefore : (∀ b, before = some b → b.Fits) ∨ ∀ e, E e) :
    ∀ e, keptFillings t before = .error e → E e := by
  intro e he
  rcases hbefore with hfits | hall
  · obtain ⟨fs, hok, -⟩ := keptFillings_ok t hfits
    rw [hok] at he
    cases he
  · exact hall e

mutual

theorem minds_holes (hI : Among host.kinds Used E I) (owner : Option StreamEntry) (s : Scope) :
    ∀ (t : Template) (before : List Filling), (∀ ref ∈ t.references, Used ref.1) → t.FailsIn E →
    (before = [] ∨ t.shape.Fits before ∨ ∀ e, E e) → Minds I E (holes host owner s t before)
  | .text _, before, _, _, _ => by
      unfold holes
      exact .pure _
  | .hole _ h rest, before, hrefs, hfails, hbefore => by
      obtain ⟨hown, hrest⟩ := List.forall_mem_append.mp hrefs
      have hhead : (∀ f, before.head? = some f → h.shape.Fits f) ∨ ∀ e, E e := by
        rcases hbefore with rfl | hfits | hall
        · exact .inl fun f hf => by cases hf
        · cases before with
          | nil => exact .inl fun f hf => by cases hf
          | cons b bs =>
              refine .inl fun f hf => ?_
              obtain rfl := Option.some.inj hf
              exact hfits.1
        · exact .inr hall
      have htail : before.tail = [] ∨ rest.shape.Fits before.tail ∨ ∀ e, E e := by
        rcases hbefore with rfl | hfits | hall
        · exact .inl rfl
        · cases before with
          | nil => exact .inl rfl
          | cons b bs => exact .inr (.inl hfits.2)
        · exact .inr (.inr hall)
      unfold holes
      refine .bind (minds_hole hI owner s h before.head? hown hfails.1 hhead) fun f => ?_
      exact .bind (minds_holes hI owner s rest before.tail hrest hfails.2 htail) fun fs => .pure _

theorem minds_hole (hI : Among host.kinds Used E I) (owner : Option StreamEntry) (s : Scope) :
    ∀ (h : Hole) (before : Option Filling), (∀ ref ∈ h.references, Used ref.1) → h.FailsIn E →
    ((∀ f, before = some f → h.shape.Fits f) ∨ ∀ e, E e) → Minds I E (hole host owner s h before)
  | .value reads eval, before, _, hfails, _ => by
      unfold hole
      split
      · exact .pure _
      · exact .ofExcept_bind (hfails s) fun v _ => .pure _
  | .choice reads choose branches, before, hrefs, hfails, hbefore => by
      unfold hole
      refine .ofExcept_bind (fun e he => ?_) fun b _ => ?_
      · -- a branch that is kept does not fail
        unfold branchOf at he
        split at he
        · split at he
          · cases he
          · exact hfails.1 s e he
        · exact hfails.1 s e he
      · split
        · exact .pure _
        · next i _ =>
            refine .bind (minds_branch hI owner s branches i hrefs hfails.2 ?_) fun t => .pure _
            refine hbefore.imp_left fun hfits t ht => ?_
            exact (Shape.fitsAt_iff.mp (hfits _ (treeOfBranch_some ht))).2
  | .loop reads items binding body, before, hrefs, hfails, _ => by
      unfold hole
      split
      · next entries _ =>
          refine .bind (.forM entries fun t => .modify fun p hp => ?_) fun _ => .pure _
          exact hI.follow p.roster t hp
      · refine .ofExcept_bind (hfails.1 s) fun values _ => ?_
        refine .bind (.mapM values fun v => ?_) fun entries => .pure _
        refine .bind ?_ fun fs => .pure _
        exact minds_holes hI owner (s.bind binding v) body [] hrefs hfails.2 (.inl rfl)
  | .stream name binding body, before, hrefs, hfails, _ => by
      unfold hole
      refine .bind (.modifyGet fun p hp => hp) fun o => ?_
      split
      · exact .pure _
      · next flush =>
          refine .bind (.mapM flush.inserts fun i => ?_) fun entries => .pure _
          refine .bind (.modify fun p hp => hI.draw p.roster _ hp) fun _ => ?_
          refine .bind ?_ fun fs => .pure _
          exact minds_holes hI _ _ body [] hrefs hfails (.inl rfl)
  | .component kind id props, before, hrefs, hfails, _ => by
      unfold hole
      exact minds_component hI s (hrefs (kind, props) (List.mem_singleton_self _)) hfails.1 hfails.2

theorem minds_branch (hI : Among host.kinds Used E I) (owner : Option StreamEntry) (s : Scope)
    {before : Option Tree} {chosen count : Nat} :
    ∀ (bs : Branches) (n : Nat), (∀ ref ∈ bs.references, Used ref.1) → bs.FailsIn E →
    ((∀ b, before = some b → b.Fits) ∨ ∀ e, E e) →
    Minds I E (branch host owner s before chosen count bs n)
  | .none, n, _, _, _ => by
      unfold branch
      exact .throw (hI.noSuchChoice chosen count)
  | .more t rest, 0, hrefs, hfails, hbefore => by
      unfold branch
      refine .ofExcept_bind (minds_keptFillings t hbefore) fun kept hkept => ?_
      refine .bind (minds_holes hI owner s t kept
        (List.forall_mem_append.mp hrefs).1 hfails.1 ?_) fun fs => .pure _
      rcases hbefore with hfits | hall
      · exact (fits_of_keptFillings hkept hfits).imp_right .inl
      · exact .inr (.inr hall)
  | .more t rest, n + 1, hrefs, hfails, hbefore => by
      unfold branch
      exact minds_branch hI owner s rest n (List.forall_mem_append.mp hrefs).2 hfails.2 hbefore

end

/-- **Rendering keeps what references to the kinds of the template keep.** -/
theorem minds_template (hI : Among host.kinds Used E I) (s : Scope) {t : Template}
    (hrefs : ∀ ref ∈ t.references, Used ref.1) (hfails : t.FailsIn E) {before : Option Tree}
    (hbefore : (∀ b, before = some b → b.Fits) ∨ ∀ e, E e) :
    Minds I E (template host s t before) := by
  refine .ofExcept_bind (minds_keptFillings t hbefore) fun kept hkept => ?_
  refine .bind (minds_holes hI none s t kept hrefs hfails ?_) fun fs => .pure _
  rcases hbefore with hfits | hall
  · exact (fits_of_keptFillings hkept hfits).imp_right .inl
  · exact .inr (.inr hall)

end Pass

end ViewSync
