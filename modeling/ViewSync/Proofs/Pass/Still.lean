import Mathlib.Data.List.Forall2
import ViewSync.Proofs.Tree.Still

/-!
# Rendering again

A tree is *still* at a scope when rendering it again from there would leave it as it is: whatever a
pass would not keep of it is what the callbacks yield, and no stream in it has anything waiting.
Every tree is still once it was rendered and the record of writes was cleared, if callbacks are
functions of the values that they read; what they are said to read does not matter.

What a pass keeps while nothing is written does not depend on the paths that are read, only on
whether there may be anything else.
-/

namespace ViewSync

/-! ## Callbacks that read values only -/

/-- The scope with the record of writes cleared. -/
def Scope.settled (s : Scope) : Scope := { s with assigns := s.assigns.settled }

/-- A callback does not consult the record of writes. -/
def Callback.ValuesOnly {α : Type} (f : Callback α) : Prop := ∀ s : Scope, f s.settled = f s

mutual

/-- No callback of a template consults the record of writes. -/
def Template.ValuesOnly : Template → Prop
  | .text _ => True
  | .hole _ h rest => h.ValuesOnly ∧ rest.ValuesOnly

/-- No callback of a hole does. -/
def Hole.ValuesOnly : Hole → Prop
  | .value _ eval => Callback.ValuesOnly eval
  | .choice _ choose branches => Callback.ValuesOnly choose ∧ branches.ValuesOnly
  | .loop _ items _ body => Callback.ValuesOnly items ∧ body.ValuesOnly
  | .stream _ _ body => body.ValuesOnly
  | .component _ id props => Callback.ValuesOnly id ∧ Callback.ValuesOnly props

/-- No callback of some branches does. -/
def Branches.ValuesOnly : Branches → Prop
  | .none => True
  | .more t rest => t.ValuesOnly ∧ rest.ValuesOnly

end

/-! ## Trees that are still -/

/-- Whether a pass keeps what reads so much while nothing is written. -/
def Host.keeps (host : Host) (reads : Reads) : Bool :=
  host.config.changeTracking && decide (reads ≠ .anything)

theorem keeps_of_mayKeep {host : Host} {s : Scope} {reads : Reads}
    (h : Pass.mayKeep host s reads = true) : host.keeps reads = true := by
  unfold Pass.mayKeep at h
  unfold Host.keeps
  rw [Bool.and_eq_true] at h ⊢
  refine ⟨h.1, decide_eq_true ?_⟩
  rintro rfl
  cases h.2

theorem mayKeep_settled (host : Host) {s : Scope} (hs : s.assigns.before = []) (reads : Reads) :
    Pass.mayKeep host s reads = host.keeps reads := by
  have hintact : reads.intactIn s.assigns = decide (reads ≠ .anything) := by
    cases reads with
    | anything => rfl
    | paths ps =>
        have hnone : s.assigns.differsAtAny ps = false := by
          refine List.any_eq_false.mpr fun p _ => ?_
          simp [Assigns.differsAt, hs, Keyed.get?]
        simp [Reads.intactIn, hnone]
  unfold Pass.mayKeep Host.keeps
  rw [hintact]

mutual

/-- Whatever a pass would not keep of these fillings is what the callbacks yield at a scope, and the
streams are dry. Fillings of entries are not kept one by one, so that all of them are looked at. -/
def Template.StillAt (host : Host) (dry : String → Prop) (kept : Bool) (s : Scope) :
    Template → List Filling → Prop
  | .text _, _ => True
  | .hole .., [] => True
  | .hole _ h rest, f :: fs => h.StillAt host dry kept s f ∧ rest.StillAt host dry kept s fs

/-- The same of one hole. -/
def Hole.StillAt (host : Host) (dry : String → Prop) (kept : Bool) (s : Scope) :
    Hole → Filling → Prop
  | .value reads eval, f =>
    (kept && host.keeps reads) = false →
      (Hole.value reads eval).fill host.config.escapeHtml s = .ok f
  | .choice reads choose branches, .choice b tree =>
    ((kept && host.keeps reads) = false → choose s = .ok b) ∧
      ∀ i t, b = some i → tree = some t → branches.StillAt host dry kept s i t
  | .loop reads items binding body, .loop _ entries =>
    (kept && host.keeps reads && host.keeps body.reads) = false →
      ∃ values, items s = .ok values ∧ List.Forall₂
        (fun v t => body.StillAt host dry false (s.bind binding v) t.fillings) values entries
  | .stream name _ _, _ => dry name
  | _, _ => True

/-- The same of the branch at a position. -/
def Branches.StillAt (host : Host) (dry : String → Prop) (kept : Bool) (s : Scope) :
    Branches → Nat → Tree → Prop
  | .none, _, _ => True
  | .more t _, 0, tree => t.StillAt host dry kept s tree.fillings
  | .more _ rest, n + 1, tree => rest.StillAt host dry kept s n tree

end

variable {host : Host} {dry : String → Prop} {s : Scope}

mutual

/-- Blanking leaves a tree still. -/
theorem Template.stillAt_blank {gone : List Handle} : ∀ (t : Template) (kept : Bool) (s : Scope)
    (fs : List Filling), t.StillAt host dry kept s fs →
    t.StillAt host dry kept s (Tree.blankEach gone fs)
  | .text _, _, _, _, _ => trivial
  | .hole .., _, _, [], _ => trivial
  | .hole _ h rest, kept, s, f :: fs, hs =>
      ⟨h.stillAt_blank kept s f hs.1, rest.stillAt_blank kept s fs hs.2⟩

theorem Hole.stillAt_blank {gone : List Handle} : ∀ (h : Hole) (kept : Bool) (s : Scope)
    (f : Filling), h.StillAt host dry kept s f →
    h.StillAt host dry kept s (Tree.blankFilling gone f)
  | .value _ eval, kept, s, f, hs => by
      intro hkept
      have hfill := hs hkept
      obtain ⟨v, -, hv⟩ := bind_ok hfill
      obtain rfl := Except.ok.inj hv
      exact hfill
  | .choice _ _ branches, kept, s, f, hs => by
      cases f with
      | choice b tree =>
          cases tree with
          | none => exact hs
          | some t =>
              refine ⟨hs.1, ?_⟩
              rintro i _ hi ⟨⟩
              exact branches.stillAt_blank kept s i t (hs.2 i t hi rfl)
      | component h changed =>
          rw [Tree.blankFilling]
          split <;> trivial
      | _ => trivial
  | .loop _ _ binding body, kept, s, f, hs => by
      cases f with
      | loop shape entries =>
          intro hkept
          obtain ⟨values, hvalues, hentries⟩ := hs hkept
          refine ⟨values, hvalues, ?_⟩
          rw [Tree.blankTrees_eq_map, List.forall₂_map_right_iff]
          refine hentries.imp fun v t ht => ?_
          rw [Tree.fillings_blank]
          exact body.stillAt_blank false (s.bind binding v) t.fillings ht
      | component h changed =>
          rw [Tree.blankFilling]
          split <;> trivial
      | choice b tree => cases tree <;> trivial
      | _ => trivial
  | .stream .., _, _, _, hs => hs
  | .component .., _, _, _, hs => hs

theorem Branches.stillAt_blank {gone : List Handle} : ∀ (bs : Branches) (kept : Bool) (s : Scope)
    (n : Nat) (t : Tree), bs.StillAt host dry kept s n t →
    bs.StillAt host dry kept s n (t.blank gone)
  | .none, _, _, _, _, _ => trivial
  | .more t _, kept, s, 0, .mk _ fs, hs => t.stillAt_blank kept s fs hs
  | .more _ rest, kept, s, n + 1, t, hs => rest.stillAt_blank kept s n t hs

end

/-! ## Rendering leaves a tree still -/

namespace Pass

variable {α β : Type}

/-- A step takes flushes and brings none, and its results have a property if every stream is dry
whose flush is not there afterwards. -/
def Dries (dry : String → Prop) (x : PassM α) (Q : α → Prop) : Prop :=
  ∀ p, (∀ name, p.flushes.get? name = none → (x.run p).2.flushes.get? name = none) ∧
    ∀ a, (x.run p).1 = .ok a →
      (∀ name, (x.run p).2.flushes.get? name = none → dry name) → Q a

namespace Dries

variable {Q : α → Prop} {R : β → Prop}

theorem pure {a : α} (h : Q a) : Dries dry (pure a) Q := by
  refine fun p => ⟨fun _ h => h, fun b hb _ => ?_⟩
  obtain rfl : a = b := Except.ok.inj hb
  exact h

theorem throw (e : Error) : Dries dry (throw e : PassM α) Q :=
  fun _ => ⟨fun _ h => h, fun _ h _ => by cases h⟩

theorem bind {x : PassM α} {f : α → PassM β} (hx : Dries dry x Q)
    (hf : ∀ a, Dries dry (f a) fun b => Q a → R b) : Dries dry (x >>= f) R := by
  intro p
  obtain ⟨hmono, hres⟩ := hx p
  rw [run_bind]
  cases h : x.run p with
  | mk r p' =>
      rw [h] at hmono hres
      cases r with
      | ok a =>
          obtain ⟨hmono', hres'⟩ := hf a p'
          refine ⟨fun name hname => hmono' name (hmono name hname), fun b hb hdry => ?_⟩
          exact hres' b hb hdry (hres a rfl fun name hname => hdry name (hmono' name hname))
      | error e => exact ⟨hmono, fun _ h _ => by cases h⟩

/-- A callback comes first, and writes nothing. -/
theorem ofExcept_bind {x : Except Error α} {f : α → PassM β}
    (hf : ∀ a, x = .ok a → Dries dry (f a) R) : Dries dry (Pass.ofExcept x >>= f) R := by
  cases x with
  | error e => exact fun _ => ⟨fun _ h => h, fun _ h _ => by cases h⟩
  | ok a => exact hf a rfl

/-- What keeps streams dry one by one brings no flush. -/
theorem of_yields {x : PassM α}
    (h : ∀ name, Yields (fun p => p.flushes.get? name = none) x fun _ => True) :
    Dries dry x fun _ => True :=
  fun p => ⟨fun name hname => (h name p hname).1, fun _ _ _ => trivial⟩

theorem mono {x : PassM α} {Q' : α → Prop} (hx : Dries dry x Q) (h : ∀ a, Q a → Q' a) :
    Dries dry x Q' :=
  fun p => ⟨(hx p).1, fun a ha hdry => h a ((hx p).2 a ha hdry)⟩

theorem mapM {f : β → PassM α} {P : β → α → Prop} (l : List β)
    (h : ∀ b ∈ l, Dries dry (f b) (P b)) : Dries dry (l.mapM f) (List.Forall₂ P l) := by
  induction l with
  | nil => exact pure .nil
  | cons b l ih =>
      rw [List.mapM_cons]
      refine bind (h b List.mem_cons_self) fun a => ?_
      refine bind (ih fun c hc => h c (List.mem_cons_of_mem _ hc)) fun as => ?_
      exact pure fun has ha => .cons ha has

end Dries

/-- A stream without a flush stays without. -/
theorem closed_dry (kinds : Kinds) (name : String) :
    Closed kinds (fun _ => True) fun p => p.flushes.get? name = none where
  refer _ _ _ _ _ h _ := h
  follow _ _ h := h
  draw _ _ h := h
  take p other h := by
    rw [Keyed.get?_erase, h, ite_self]
  note _ _ h := h
  items _ _ _ _ _ _ _ := trivial
  keys _ := trivial

theorem dries_takeFlush (name : String) : Dries dry (takeFlush name) fun _ => dry name := by
  refine fun p => ⟨fun other h => ?_, fun o _ hdry => hdry name (Keyed.get?_erase_self _ _)⟩
  change (p.flushes.erase name).get? other = none
  rw [Keyed.get?_erase, h, ite_self]

theorem dries_onRoster (f : Roster → Roster) : Dries dry (onRoster f) fun _ => True :=
  fun _ => ⟨fun _ h => h, fun _ _ _ => trivial⟩

/-- The branch is kept, or chosen anew. -/
theorem branchOf_cases {reads : Reads} {choose : Callback (Option Nat)} {before : Option Filling}
    {b : Option Nat} (h : branchOf host s reads choose (branchBefore before) = .ok b) :
    (before ≠ none ∧ host.keeps reads = true) ∨ choose s = .ok b := by
  unfold branchOf at h
  split at h
  · next hbefore =>
      split at h
      · next hkeep =>
          refine .inl ⟨?_, keeps_of_mayKeep hkeep⟩
          rintro rfl
          cases hbefore
      · exact .inr h
  · exact .inr h

mutual

theorem still_holes (owner : Option StreamEntry) : ∀ (t : Template), t.ValuesOnly →
    ∀ (kept : Bool) (s : Scope) (before : List Filling), (kept = false → before = []) →
    Dries dry (holes host owner s t before) (t.StillAt host dry kept s.settled ·)
  | .text _, _, kept, s, before, _ => by
      unfold holes
      exact .pure trivial
  | .hole _ h rest, hv, kept, s, before, hkept => by
      unfold holes
      refine .bind (still_hole owner h hv.1 kept s before.head? fun hk => ?_) fun f => ?_
      · rw [hkept hk]
        rfl
      · refine .bind (still_holes owner rest hv.2 kept s before.tail fun hk => ?_) fun fs => ?_
        · rw [hkept hk]
          rfl
        · exact .pure fun hfs hf => ⟨hf, hfs⟩

theorem still_hole (owner : Option StreamEntry) : ∀ (h : Hole), h.ValuesOnly →
    ∀ (kept : Bool) (s : Scope) (before : Option Filling), (kept = false → before = none) →
    Dries dry (hole host owner s h before) (h.StillAt host dry kept s.settled ·)
  | .value reads eval, hv, kept, s, before, hkept => by
      unfold hole
      split
      · next text htext =>
          refine .pure fun hk => ?_
          unfold keptText at htext
          split at htext
          · split at htext
            · next hmay =>
                rw [keeps_of_mayKeep hmay, Bool.and_true] at hk
                cases hkept hk
            · cases htext
          · cases htext
      · refine .ofExcept_bind fun v heval => .pure fun _ => ?_
        rw [Hole.fill, hv s, heval]
        rfl
  | .choice reads choose branches, hv, kept, s, before, hkept => by
      unfold hole
      refine .ofExcept_bind fun b hb => ?_
      have hchosen : (kept && host.keeps reads) = false → choose s.settled = .ok b := by
        intro hk
        rcases branchOf_cases hb with ⟨hbefore, hkeeps⟩ | hchoose
        · rw [hkeeps, Bool.and_true] at hk
          exact absurd (hkept hk) hbefore
        · exact (hv.1 s).trans hchoose
      cases b with
      | none => exact .pure ⟨hchosen, fun _ _ h => by cases h⟩
      | some i =>
          refine .bind (still_branch owner branches hv.2 kept s i _ fun hk => ?_) fun tree => ?_
          · rw [hkept hk]
            rfl
          · refine .pure fun htree => ⟨hchosen, ?_⟩
            rintro _ _ ⟨⟩ ⟨⟩
            exact htree
  | .loop reads items binding body, hv, kept, s, before, hkept => by
      unfold hole
      split
      · next entries hentries =>
          refine .bind (Q := fun _ => True) ?_ fun _ => .pure fun _ hk => ?_
          · exact .of_yields fun name => .forM entries fun t _ => .modify fun p hp => hp
          · unfold keptEntries at hentries
            split at hentries
            · split at hentries
              · next hmay =>
                  simp only [Bool.and_eq_true] at hmay
                  rw [keeps_of_mayKeep hmay.1.2, keeps_of_mayKeep hmay.2, Bool.and_true,
                    Bool.and_true] at hk
                  cases hkept hk
              · cases hentries
            · cases hentries
      · refine .ofExcept_bind fun values hvalues => ?_
        refine .bind (.mapM values (P := fun v t =>
          body.StillAt host dry false (s.settled.bind binding v) t.fillings) fun v _ => ?_)
          fun entries => ?_
        · refine .bind (still_holes owner body hv.2 false (s.bind binding v) [] fun _ => rfl)
            fun fs => ?_
          exact .pure fun hfs => hfs
        · exact .pure fun hentries _ => ⟨values, (hv.1 s).trans hvalues, hentries⟩
  | .stream name binding body, hv, kept, s, before, _ => by
      unfold hole
      refine .bind (dries_takeFlush name) fun o => ?_
      split
      · exact .pure fun hdry => hdry
      · next flush =>
          refine .bind (Q := fun _ => True) ?_ fun entries => .pure fun _ hdry => hdry
          refine (Dries.mapM flush.inserts (P := fun _ _ => True) fun i _ => ?_).mono
            fun _ _ => trivial
          refine .bind (dries_onRoster _) fun _ => ?_
          refine .bind (still_holes _ body hv false _ [] fun _ => rfl) fun fs => ?_
          exact .pure fun _ _ => trivial
  | .component kind id props, _, kept, s, before, _ => by
      unfold hole
      refine (Dries.of_yields fun name => ?_).mono fun _ _ => trivial
      exact (yields_component (closed_dry host.kinds name)
        ⟨fun _ _ => trivial, fun _ _ _ => trivial⟩ fun _ _ _ _ _ _ => trivial).mono
        fun _ _ => trivial

theorem still_branch (owner : Option StreamEntry) {chosen count : Nat} : ∀ (bs : Branches),
    bs.ValuesOnly → ∀ (kept : Bool) (s : Scope) (n : Nat) (before : Option Tree),
    (kept = false → before = none) →
    Dries dry (branch host owner s before chosen count bs n)
      (bs.StillAt host dry kept s.settled n ·)
  | .none, _, _, _, _, _, _ => by
      unfold branch
      exact .throw _
  | .more t _, hv, kept, s, 0, before, hkept => by
      unfold branch
      refine .ofExcept_bind fun fs hfs => ?_
      refine .bind (still_holes owner t hv.1 kept s fs fun hk => ?_) fun gs => ?_
      · rw [hkept hk] at hfs
        exact (Except.ok.inj hfs).symm
      · exact .pure fun hgs => hgs
  | .more _ rest, hv, kept, s, n + 1, before, hkept => by
      unfold branch
      exact still_branch owner rest hv.2 kept s n before hkept

end

/-- **Rendering a template leaves a tree that is still** once the record of writes is cleared. -/
theorem still_template {t : Template} (hv : t.ValuesOnly) (s : Scope) (before : Option Tree) :
    Dries dry (template host s t before) fun tree =>
      t.StillAt host dry true s.settled tree.fillings := by
  refine .ofExcept_bind fun kept _ => ?_
  refine .bind (still_holes none t hv true s kept fun h => by cases h) fun fs => ?_
  exact .pure fun hfs => hfs

end Pass

end ViewSync
