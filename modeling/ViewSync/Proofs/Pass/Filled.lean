import ViewSync.Proofs.Roster.Answers

/-!
# Rendering in full

Without change tracking a template is rendered in full: if no failure is noted on the way, the tree
is filled from the template at the scope, and its handles are those that the references of the
template were answered with, in their order. The tree that was there before has no part in it.
-/

namespace ViewSync.Pass

open ViewSync.Roster ViewSync.Tree

variable {α β : Type} {kinds : Kinds} {Good : Reference → Prop}

/-! ## Steps that make references -/

/-- A step that goes well without a failure makes references, and its results go together with
them. -/
def Fills (kinds : Kinds) (Good : Reference → Prop) (x : PassM α)
    (Q : α → List (Reference × Handle) → Prop) : Prop :=
  ∀ p, (x.run p).2.errors = [] → p.errors = [] ∧ ∀ a, (x.run p).1 = .ok a → ∃ calls,
    Referred kinds p.roster calls (x.run p).2.roster ∧ (∀ e ∈ calls, Good e.1) ∧ Q a calls

namespace Fills

variable {Q : α → List (Reference × Handle) → Prop} {R : β → List (Reference × Handle) → Prop}

theorem pure {a : α} (h : Q a []) : Fills kinds Good (pure a) Q := by
  refine fun p herrors => ⟨herrors, ?_⟩
  rintro _ ⟨⟩
  exact ⟨[], .done p.roster, List.forall_mem_nil _, h⟩

theorem throw (e : Error) : Fills kinds Good (throw e : PassM α) Q :=
  fun _ herrors => ⟨herrors, fun _ h => by cases h⟩

theorem ofExcept {x : Except Error α} (h : ∀ a, x = .ok a → Q a []) :
    Fills kinds Good (Pass.ofExcept x) Q :=
  fun p herrors => ⟨herrors, fun a ha => ⟨[], .done p.roster, List.forall_mem_nil _, h a ha⟩⟩

theorem ofExcept_bind {x : Except Error α} {f : α → PassM β}
    (hf : ∀ a, x = .ok a → Fills kinds Good (f a) R) :
    Fills kinds Good (Pass.ofExcept x >>= f) R := by
  cases x with
  | error e => exact fun _ herrors => ⟨herrors, fun _ h => by cases h⟩
  | ok a => exact hf a rfl

/-- No failure is forgotten, so that the first step went well without one if both did. -/
theorem bind {x : PassM α} {f : α → PassM β} (hx : Fills kinds Good x Q)
    (hf : ∀ a, Fills kinds Good (f a) fun b calls' =>
      ∀ calls, Q a calls → R b (calls ++ calls')) :
    Fills kinds Good (x >>= f) R := by
  intro p herrors
  have hx := hx p
  rw [run_bind] at herrors ⊢
  cases h : x.run p with
  | mk result p' =>
      rw [h] at hx herrors
      cases result with
      | error e => exact ⟨(hx herrors).1, fun _ h => by cases h⟩
      | ok a =>
          obtain ⟨hmid, hsecond⟩ := hf a p' herrors
          obtain ⟨hfirst, hres⟩ := hx hmid
          obtain ⟨calls, hcalls, hgood, ha⟩ := hres a rfl
          refine ⟨hfirst, fun b hb => ?_⟩
          obtain ⟨calls', hcalls', hgood', hb⟩ := hsecond b hb
          exact ⟨_, hcalls.trans hcalls', List.forall_mem_append.mpr ⟨hgood, hgood'⟩,
            hb calls ha⟩

/-- Only the result is made up from that of the last step. -/
theorem bind_pure {x : PassM α} {f : α → β} (hx : Fills kinds Good x Q)
    (hf : ∀ a calls, Q a calls → R (f a) calls) :
    Fills kinds Good (do return f (← x)) R := by
  refine bind hx fun a => pure fun calls ha => ?_
  rw [List.append_nil]
  exact hf a calls ha

theorem mapM {f : β → PassM α} {P : β → α → List (Reference × Handle) → Prop}
    {S : List β → List α → List (Reference × Handle) → Prop} (hnil : S [] [] [])
    (hcons : ∀ b bs a as calls calls', P b a calls → S bs as calls' →
      S (b :: bs) (a :: as) (calls ++ calls'))
    (l : List β) (h : ∀ b ∈ l, Fills kinds Good (f b) (P b)) :
    Fills kinds Good (l.mapM f) (S l) := by
  induction l with
  | nil => exact pure hnil
  | cons b l ih =>
      rw [List.mapM_cons]
      refine bind (h b List.mem_cons_self) fun a => ?_
      refine bind_pure (ih fun c hc => h c (List.mem_cons_of_mem _ hc)) fun as calls' has => ?_
      exact fun calls ha => hcons b l a as calls calls' ha has

end Fills

/-! ## Templates -/

/-- Fillings are what a template comes to with the references that were made, and have their
handles. -/
structure Made (escaped : Bool) (s : Scope) (t : Template) (fs : List Filling)
    (calls : List (Reference × Handle)) : Prop where
  /-- The fillings are what the template comes to. -/
  filled : t.FilledAt escaped (fun ref h => (ref, h) ∈ calls) s fs
  /-- They have the handles of the references, in order. -/
  handles : handlesOfEach fs = calls.map Prod.snd

/-- The same of one hole. -/
structure MadeOf (escaped : Bool) (s : Scope) (hole : Hole) (f : Filling)
    (calls : List (Reference × Handle)) : Prop where
  /-- The filling is what the hole comes to. -/
  filled : hole.FilledAt escaped (fun ref h => (ref, h) ∈ calls) s f
  /-- It has the handles of the references, in order. -/
  handles : handlesOf f = calls.map Prod.snd

/-- The same of the entries of a loop. -/
structure MadeOfEach (escaped : Bool) (s : Scope) (binding : String) (body : Template)
    (values : List Value) (entries : List Tree) (calls : List (Reference × Handle)) : Prop where
  /-- There is an entry for each value, and it is what the body comes to with that. -/
  filled : List.Forall₂ (fun v t => t.shape = body.shape ∧
    body.FilledAt escaped (fun ref h => (ref, h) ∈ calls) (s.bind binding v) t.fillings)
    values entries
  /-- The entries have the handles of the references, in order. -/
  handles : handlesOfTrees entries = calls.map Prod.snd

variable {host : Host} {escaped : Bool} {s : Scope}

variable (host) in
/-- A reference that goes well leaves no failure behind. -/
theorem fills_component {kind : KindRef} {id : Callback String} {props : Callback Fields}
    (hgood : ∀ i fields, props s = .ok fields → Good ⟨kind, i, fields⟩) :
    Fills host.kinds Good (component host none s kind id props)
      (MadeOf escaped s (.component kind id props)) := by
  -- where a reference fails, the failure is noted or goes on
  have hrecover (e : Error) (p : Pass) :
      let x := ((do
        if e.isFatal then throw e
        note e
        return Filling.text "" : PassM Filling)).run p
      x.2.errors = [] → p.errors = [] ∧ ∀ f, x.1 ≠ .ok f := by
    intro x herrors
    by_cases he : e.isFatal = true
    · have hx : x = (.error e, p) := by
        simp only [x, he]
        rfl
      rw [hx] at herrors ⊢
      exact ⟨herrors, fun _ h => by cases h⟩
    · have hx : x = (.ok (.text ""), { p with errors := p.errors ++ [e] }) := by
        simp only [x, he]
        rfl
      rw [hx] at herrors
      exact absurd (List.append_eq_nil_iff.mp herrors).2 (List.cons_ne_nil e [])
  intro p herrors
  unfold component at herrors ⊢
  rw [run_tryCatch, run_bind, run_refer] at herrors ⊢
  cases hid : id s with
  | error e =>
      simp only [hid] at herrors ⊢
      obtain ⟨hp, hfail⟩ := hrecover e p herrors
      exact ⟨hp, fun f hf => absurd hf (hfail f)⟩
  | ok i =>
      cases hprops : props s with
      | error e =>
          simp only [hid, hprops] at herrors ⊢
          obtain ⟨hp, hfail⟩ := hrecover e p herrors
          exact ⟨hp, fun f hf => absurd hf (hfail f)⟩
      | ok fields =>
          simp only [hid, hprops] at herrors ⊢
          cases hresult : p.roster.refer host.kinds i kind fields none with
          | mk result r =>
              rw [hresult] at herrors
              cases result with
              | error e =>
                  obtain ⟨hp, hfail⟩ := hrecover e { p with roster := r } herrors
                  exact ⟨hp, fun f hf => absurd hf (hfail f)⟩
              | ok answer =>
                  obtain ⟨h, changed⟩ := answer
                  refine ⟨herrors, fun f hf => ?_⟩
                  obtain rfl := Except.ok.inj hf
                  have hgood := hgood i fields hprops
                  refine ⟨[(⟨kind, i, fields⟩, h)], .call hresult (.done r),
                    List.forall_mem_singleton.mpr hgood, ?_, rfl⟩
                  exact ⟨i, fields, hid, hprops, List.mem_singleton_self _⟩

/-- What a template is filled from may be made with more references. -/
theorem filledAt_append {t : Template} {fs : List Filling} {calls : List (Reference × Handle)}
    (hf : t.FilledAt escaped (fun ref h => (ref, h) ∈ calls) s fs)
    {calls' : List (Reference × Handle)} (hsub : calls ⊆ calls') :
    t.FilledAt escaped (fun ref h => (ref, h) ∈ calls') s fs :=
  t.filledAt_imp s fs (fun _ _ _ hin => hsub hin) hf

theorem MadeOfEach.cons {binding : String} {body : Template} {v : Value} {values : List Value}
    {t : Tree} {entries : List Tree} {calls calls' : List (Reference × Handle)}
    (hshape : t.shape = body.shape) (ht : Made escaped (s.bind binding v) body t.fillings calls)
    (hts : MadeOfEach escaped s binding body values entries calls') :
    MadeOfEach escaped s binding body (v :: values) (t :: entries) (calls ++ calls') where
  filled := .cons ⟨hshape, filledAt_append ht.filled (List.subset_append_left _ _)⟩
    (hts.filled.imp fun _ _ hentry =>
      ⟨hentry.1, filledAt_append hentry.2 (List.subset_append_right _ _)⟩)
  handles := by
    obtain ⟨_, fs⟩ := t
    rw [handlesOfTrees, List.map_append, ← hts.handles, ← ht.handles]
    rfl

mutual

theorem fills_holes : ∀ (t : Template) (s : Scope) (before : List Filling),
    t.shape.StreamFree → t.Makes Value.Plain → s.All Value.Plain →
    Asks Good t.references →
    Fills host.kinds Good (holes (host.tracking false) none s t before)
      (Made host.config.escapeHtml s t)
  | .text _, s, before, _, _, _, _ => by
      unfold holes
      exact .pure ⟨rfl, rfl⟩
  | .hole _ h rest, s, before, hfree, hm, hs, hgood => by
      obtain ⟨hfree, hfreeRest⟩ : h.shape.StreamFree ∧ rest.shape.StreamFree := by
        simpa [Template.shape, Shape.StreamFree] using hfree
      have hgoodHole := fun e he => hgood e (List.mem_append_left _ he)
      have hgoodRest := fun e he => hgood e (List.mem_append_right _ he)
      unfold holes
      refine .bind (fills_hole h s before.head? hfree hm.1 hs hgoodHole) fun f => ?_
      refine .bind_pure (fills_holes rest s before.tail hfreeRest hm.2 hs hgoodRest)
        fun fs calls' hfs calls hf => ?_
      refine ⟨⟨h.filledAt_imp s f (fun _ _ _ hin => List.mem_append_left _ hin) hf.filled,
        filledAt_append hfs.filled (List.subset_append_right _ _)⟩, ?_⟩
      rw [handlesOfEach, List.map_append, hf.handles, hfs.handles]

theorem fills_hole : ∀ (h : Hole) (s : Scope) (before : Option Filling),
    h.shape.StreamFree → h.Makes Value.Plain → s.All Value.Plain →
    Asks Good h.references →
    Fills host.kinds Good (hole (host.tracking false) none s h before)
      (MadeOf host.config.escapeHtml s h)
  | .value reads eval, s, before, _, _, _, _ => by
      rw [value_off]
      refine .ofExcept fun f hf => ?_
      obtain ⟨v, hv, hf⟩ := bind_ok hf
      obtain rfl := Except.ok.inj hf
      exact ⟨⟨v, hv, rfl⟩, rfl⟩
  | .choice reads choose branches, s, before, hfree, hm, hs, hgood => by
      unfold hole
      dsimp only
      rw [branchOf_off]
      refine .ofExcept_bind fun b hb => ?_
      cases b with
      | none => exact .pure ⟨hb, rfl⟩
      | some i =>
          refine .bind_pure (fills_branch branches s _ i hfree hm hs hgood) fun t calls ht => ?_
          exact ⟨⟨hb, ht.1⟩, ht.2⟩
  | .loop reads items binding body, s, before, hfree, hm, hs, hgood => by
      unfold hole
      rw [keptEntries_off]
      refine .ofExcept_bind fun values hvalues => ?_
      refine .bind_pure (.mapM (P := fun v t calls => t.shape = body.shape ∧
          Made host.config.escapeHtml (s.bind binding v) body t.fillings calls)
        (S := MadeOfEach host.config.escapeHtml s binding body) ⟨.nil, rfl⟩
        (fun _ _ _ _ _ _ ht hts => .cons ht.1 ht.2 hts) values fun v hv => ?_)
        fun entries calls hentries => ?_
      · have hbound := hs.bind binding (hm.1 s values hs hvalues v hv)
        exact .bind_pure (fills_holes body (s.bind binding v) [] hfree hm.2 hbound hgood)
          fun fs calls hfs => ⟨rfl, hfs⟩
      · exact ⟨⟨rfl, values, hvalues, hentries.filled⟩, hentries.handles⟩
  | .stream .., s, _, hfree, _, _, _ => absurd hfree (by simp [Hole.shape, HoleShape.StreamFree])
  | .component kind id props, s, before, _, hm, hs, hgood => by
      unfold hole
      exact fills_component (host.tracking false) fun i fields hprops =>
        hgood _ List.mem_cons_self s i fields hs hprops (hm s fields hs hprops)

theorem fills_branch {chosen count : Nat} : ∀ (bs : Branches) (s : Scope) (before : Option Tree)
    (n : Nat), Shape.AllStreamFree bs.shapes → bs.Makes Value.Plain → s.All Value.Plain →
    Asks Good bs.references →
    Fills host.kinds Good (branch (host.tracking false) none s before chosen count bs n)
      fun t calls => bs.FilledAt host.config.escapeHtml (fun ref h => (ref, h) ∈ calls) s n t ∧
        t.handles = calls.map Prod.snd
  | .none, s, before, n, _, _, _, _ => by
      unfold branch
      exact .throw _
  | .more t _, s, before, 0, hfree, hm, hs, hgood => by
      obtain ⟨hfree, -⟩ : t.shape.StreamFree ∧ _ := by
        simpa [Branches.shapes, Shape.AllStreamFree] using hfree
      unfold branch
      refine .ofExcept_bind fun kept _ => ?_
      refine .bind_pure (fills_holes t s kept hfree hm.1 hs fun e he =>
        hgood e (List.mem_append_left _ he)) fun fs calls hfs => ?_
      exact ⟨⟨rfl, hfs.filled⟩, hfs.handles⟩
  | .more _ rest, s, before, n + 1, hfree, hm, hs, hgood => by
      obtain ⟨-, hfree⟩ : _ ∧ Shape.AllStreamFree rest.shapes := by
        simpa [Branches.shapes, Shape.AllStreamFree] using hfree
      unfold branch
      exact fills_branch rest s before n hfree hm.2 hs fun e he =>
        hgood e (List.mem_append_right _ he)

end

variable (host) in
/-- **What is rendered without a failure is filled from its template.** -/
theorem fills_template {s : Scope} {t : Template} (before : Option Tree)
    (hfree : t.shape.StreamFree) (hm : t.Makes Value.Plain) (hs : s.All Value.Plain)
    (hgood : Asks Good t.references) :
    Fills host.kinds Good (template (host.tracking false) s t before) fun tree calls =>
      tree.shape = t.shape ∧ Made host.config.escapeHtml s t tree.fillings calls := by
  refine .ofExcept_bind fun kept _ => ?_
  exact .bind_pure (fills_holes t s kept hfree hm hs hgood) fun fs calls hfs => ⟨rfl, hfs⟩

/-! ## Rendering from scratch -/

/-- A step goes well, leaves no failure behind, and keeps an invariant of the roster. -/
def Succeeds (I : Roster → Prop) (x : PassM α) : Prop :=
  ∀ p, I p.roster → ∃ a q, x.run p = (.ok a, q) ∧ I q.roster ∧ q.errors = p.errors

namespace Succeeds

variable {I : Roster → Prop}

theorem pure {a : α} : Succeeds I (pure a) := fun p hp => ⟨a, p, rfl, hp, rfl⟩

theorem ofExcept_bind {x : Except Error α} {f : α → PassM β} {a : α} (hx : x = .ok a)
    (hf : Succeeds I (f a)) : Succeeds I (Pass.ofExcept x >>= f) := by
  rw [hx]
  exact hf

theorem bind {x : PassM α} {f : α → PassM β} (hx : Succeeds I x) (hf : ∀ a, Succeeds I (f a)) :
    Succeeds I (x >>= f) := by
  intro p hp
  obtain ⟨a, q, hrun, hq, herrors⟩ := hx p hp
  obtain ⟨b, q', hrun', hq', herrors'⟩ := hf a q hq
  refine ⟨b, q', ?_, hq', herrors'.trans herrors⟩
  rw [run_bind, hrun]
  exact hrun'

theorem mapM {f : β → PassM α} {l : List β} (h : ∀ b ∈ l, Succeeds I (f b)) :
    Succeeds I (l.mapM f) := by
  induction l with
  | nil => exact pure
  | cons b l ih =>
      rw [List.mapM_cons]
      refine bind (h b List.mem_cons_self) fun a => ?_
      exact bind (ih fun c hc => h c (List.mem_cons_of_mem _ hc)) fun as => pure

end Succeeds

section Scratch

variable {I : Roster → Prop} {link : Reference → Handle → Prop}

/-- References that go together with some handle are answered, and keep an invariant. -/
def Welcome (kinds : Kinds) (I : Roster → Prop) (link : Reference → Handle → Prop) : Prop :=
  ∀ r ref h, I r → link ref h → ∃ k changed r',
    r.refer kinds ref.id ref.kind ref.props none = (.ok (k, changed), r') ∧ I r'

theorem succeeds_component (hI : Welcome host.kinds I link) {kind : KindRef}
    {id : Callback String} {props : Callback Fields} {i : String} {fields : Fields} {h : Handle}
    (hid : id s = .ok i) (hprops : props s = .ok fields) (hlink : link ⟨kind, i, fields⟩ h) :
    Succeeds I (component host none s kind id props) := by
  intro p hp
  obtain ⟨k, changed, r, hresult, hr⟩ := hI p.roster _ h hp hlink
  refine ⟨.component k changed, { p with roster := r }, ?_, hr, rfl⟩
  unfold component
  rw [run_tryCatch, run_bind, run_refer, hid, hprops]
  dsimp only at hresult ⊢
  rw [hresult]
  rfl

mutual

/-- What has been filled before can be filled from scratch, if its references go well. -/
theorem succeeds_holes (hI : Welcome host.kinds I link) :
    ∀ (t : Template) (s : Scope) (fs : List Filling),
    t.FilledAt escaped link s fs → Succeeds I (holes host none s t [])
  | .text _, s, _, _ => by
      unfold holes
      exact .pure
  | .hole _ h rest, s, f :: fs, hf => by
      unfold holes
      refine .bind (succeeds_hole hI h s f hf.1) fun _ => ?_
      exact .bind (succeeds_holes hI rest s fs hf.2) fun _ => .pure

theorem succeeds_hole (hI : Welcome host.kinds I link) :
    ∀ (h : Hole) (s : Scope) (f : Filling),
    h.FilledAt escaped link s f → Succeeds I (hole host none s h none)
  | .value reads eval, s, .text _, hf => by
      obtain ⟨v, hv, -⟩ := hf
      unfold hole
      exact .ofExcept_bind hv .pure
  | .choice reads choose branches, s, .choice none none, hf => by
      unfold hole
      exact .ofExcept_bind hf .pure
  | .choice reads choose branches, s, .choice (some i) (some t), hf => by
      unfold hole
      exact .ofExcept_bind hf.1 (.bind (succeeds_branch hI branches s i t hf.2) fun _ => .pure)
  | .loop reads items binding body, s, .loop _ entries, hf => by
      obtain ⟨-, values, hvalues, hentries⟩ := hf
      unfold hole
      refine .ofExcept_bind hvalues (.bind (.mapM fun v hv => ?_) fun _ => .pure)
      obtain ⟨t, -, ht⟩ := exists_of_forall₂ hentries.flip hv
      exact .bind (succeeds_holes hI body (s.bind binding v) t.fillings ht) fun _ => .pure
  | .component kind id props, s, .component h _, hf => by
      obtain ⟨i, fields, hid, hprops, hlink⟩ := hf
      unfold hole
      exact succeeds_component hI hid hprops hlink

theorem succeeds_branch (hI : Welcome host.kinds I link) {chosen count : Nat} :
    ∀ (bs : Branches) (s : Scope) (n : Nat) (t : Tree),
    bs.FilledAt escaped link s n t → Succeeds I (branch host none s none chosen count bs n)
  | .more t _, s, 0, tree, hf => by
      unfold branch
      refine .ofExcept_bind (a := []) rfl ?_
      exact .bind (succeeds_holes hI t s tree.fillings hf.2) fun _ => .pure
  | .more _ rest, s, n + 1, tree, hf => by
      unfold branch
      exact succeeds_branch hI rest s n tree hf

end

variable (host) in
/-- **What has been filled before can be rendered from scratch.** -/
theorem succeeds_template (hI : Welcome host.kinds I link) {t : Template} {fs : List Filling}
    (hf : t.FilledAt escaped link s fs) : Succeeds I (template host s t none) := by
  refine .ofExcept_bind (a := []) rfl ?_
  exact .bind (succeeds_holes hI t s fs hf) fun _ => .pure

end Scratch

end ViewSync.Pass
