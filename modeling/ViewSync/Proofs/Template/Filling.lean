import ViewSync.Pass
import ViewSync.Proofs.Except
import ViewSync.Proofs.Assigns.Record

/-!
# What a template reads, and what it is filled with

Where a template says what it reads, no stream and no component is inside, and what its holes are
filled with is a function of the scope alone: `fill`. If the callbacks read no more than the
template says, scopes that agree on that much fill it with the same.
-/

namespace ViewSync

/-! ## Scopes that agree -/

namespace Reads

/-- Scopes with the same locals, in which all that is read is the same. -/
def Agree : Reads → Scope → Scope → Prop
  | .paths ps, s, s' => s.locals = s'.locals ∧ ∀ p ∈ ps, Assigns.Agrees p s.assigns s'.assigns
  | .anything, _, _ => False

variable {r q : Reads} {rs : List Reads} {s s' : Scope}

theorem agree_join : (join r q).Agree s s' ↔ r.Agree s s' ∧ q.Agree s s' := by
  cases r with
  | anything => simp [join, Agree]
  | paths ps =>
      cases q with
      | anything => simp [join, Agree]
      | paths qs =>
          simp only [join, Agree, mem_appendNew]
          grind

theorem agree_joinAll : (joinAll r rs).Agree s s' ↔ r.Agree s s' ∧ ∀ q ∈ rs, q.Agree s s' := by
  unfold joinAll
  induction rs generalizing r with
  | nil => simp
  | cons q rs ih => rw [List.foldl_cons, ih, agree_join, List.forall_mem_cons, and_assoc]

theorem join_ne_anything : join r q ≠ .anything ↔ r ≠ .anything ∧ q ≠ .anything := by
  cases r <;> cases q <;> simp [join]

theorem joinAll_ne_anything :
    joinAll r rs ≠ .anything ↔ r ≠ .anything ∧ ∀ q ∈ rs, q ≠ .anything := by
  unfold joinAll
  induction rs generalizing r with
  | nil => simp
  | cons q rs ih => rw [List.foldl_cons, ih, join_ne_anything, List.forall_mem_cons, and_assoc]

theorem Agree.bind (h : r.Agree s s') (name : String) (v : Value) :
    r.Agree (s.bind name v) (s'.bind name v) := by
  cases r with
  | anything => exact h
  | paths ps => exact ⟨by rw [Scope.bind, Scope.bind, h.1], h.2⟩

theorem Agree.ne_anything (h : r.Agree s s') : r ≠ .anything := by
  rintro rfl
  exact h

/-- What the record does not report is the same as in the base. -/
theorem agree_of_intactIn {base a : Assigns} (hs : Assigns.Since base a)
    (locals : List (String × Value)) (h : r.intactIn a = true) :
    r.Agree ⟨a, locals⟩ ⟨base, locals⟩ := by
  cases r with
  | anything => cases h
  | paths ps =>
      refine ⟨rfl, fun p hp => hs.agrees ?_⟩
      have hnone : a.differsAtAny ps = false := by simpa [intactIn] using h
      simpa using List.any_eq_false.mp hnone p hp

/-! ## What the readers of a scope read -/

variable {ps : List Path}

theorem Agree.get (h : (Reads.paths ps).Agree s s') {p : Path} (hp : p ∈ ps) :
    (s.get p.root).map p.lookup? = (s'.get p.root).map p.lookup? := by
  have hassign (a : Assigns) : (a.get p.root).map p.lookup? =
      ((a.get? p.root).map p.lookup?).elim (.error (.unset p.root)) .ok := by
    unfold Assigns.get
    cases a.get? p.root <;> rfl
  have hagree : (s.assigns.get? p.root).map p.lookup? = (s'.assigns.get? p.root).map p.lookup? :=
    h.2 p hp
  unfold Scope.get
  rw [h.1]
  -- a local hides the assign of its name, and both scopes have the same locals
  cases Keyed.get? s'.locals p.root with
  | some v => rfl
  | none =>
      dsimp only
      rw [hassign, hassign, hagree]

/-- A path is all that is read to see what it leads to. -/
theorem Agree.value (h : (Reads.paths ps).Agree s s') {p : Path} (hp : p ∈ ps) :
    s.value p = s'.value p := by
  have hmap (x : Except Error Value) :
      (x.map fun v => (p.lookup? v).getD .null) = (x.map p.lookup?).map (·.getD .null) := by
    cases x <;> rfl
  unfold Scope.value
  rw [hmap, hmap, h.get hp]

/-- A bare name is all that is read to see its value. -/
theorem Agree.get_name (h : (Reads.paths ps).Agree s s') {name : String}
    (hname : ⟨name, []⟩ ∈ ps) : s.get name = s'.get name := by
  have hinj {x y : Except Error Value} (hxy : x.map some = y.map some) : x = y := by
    cases x <;> cases y <;> simp_all [Except.map]
  have hlookup : (Path.mk name []).lookup? = some := by
    funext v
    exact Path.lookup?_of_below_eq_nil rfl v
  have hget := h.get hname
  rw [hlookup] at hget
  exact hinj hget

theorem Agree.list (h : (Reads.paths ps).Agree s s') {name : String} (hname : ⟨name, []⟩ ∈ ps) :
    s.list name = s'.list name := by
  unfold Scope.list
  rw [h.get_name hname]

end Reads

/-- Template by template, what is read is read by the holes. -/
theorem Template.agree_hole {lead : String} {h : Hole} {rest : Template} {s s' : Scope} :
    (Template.hole lead h rest).reads.Agree s s' ↔ h.reads.Agree s s' ∧ rest.reads.Agree s s' := by
  unfold Template.reads
  rw [Reads.agree_joinAll, Reads.agree_joinAll]
  simp only [Template.holeReads, List.forall_mem_cons]
  grind

theorem Template.reads_hole_ne {lead : String} {h : Hole} {rest : Template} :
    (Template.hole lead h rest).reads ≠ .anything ↔
      h.reads ≠ .anything ∧ rest.reads ≠ .anything := by
  unfold Template.reads
  rw [Reads.joinAll_ne_anything, Reads.joinAll_ne_anything]
  simp only [Template.holeReads, List.forall_mem_cons]
  grind

/-! ## Callbacks that read no more than is said -/

/-- The names bound in a scope, the innermost first. -/
def Scope.bound (s : Scope) : List String := s.locals.map Prod.fst

mutual

/-- Every value, choice and list of items is the same in scopes that agree on what it is said to
read, given the names that are bound where the template stands. -/
def Template.ReadsOnly : Template → List String → Prop
  | .text _, _ => True
  | .hole _ h rest, bound => h.ReadsOnly bound ∧ rest.ReadsOnly bound

/-- The same of one hole. -/
def Hole.ReadsOnly : Hole → List String → Prop
  | .value reads eval, bound => ∀ s s', s.bound = bound → reads.Agree s s' → eval s = eval s'
  | .choice reads choose branches, bound =>
    (∀ s s', s.bound = bound → reads.Agree s s' → choose s = choose s') ∧ branches.ReadsOnly bound
  | .loop reads items binding body, bound =>
    (∀ s s', s.bound = bound → reads.Agree s s' → items s = items s') ∧
      body.ReadsOnly (binding :: bound)
  | .stream _ binding body, bound => body.ReadsOnly (Pass.keyLocal :: binding :: bound)
  | .component .., _ => True

/-- The same of each branch. -/
def Branches.ReadsOnly : Branches → List String → Prop
  | .none, _ => True
  | .more t rest, bound => t.ReadsOnly bound ∧ rest.ReadsOnly bound

end

/-! ## Filling -/

mutual

/-- What the holes of a template are filled with, streams and components aside. -/
def Template.fill (escaped : Bool) (s : Scope) : Template → Except Error (List Filling)
  | .text _ => .ok []
  | .hole _ h rest => do
    let f ← h.fill escaped s
    let fs ← rest.fill escaped s
    return f :: fs

/-- What a hole is filled with. -/
def Hole.fill (escaped : Bool) (s : Scope) : Hole → Except Error Filling
  | .value _ eval => do
    let v ← eval s
    return .text (v.safeText escaped)
  | .choice _ choose branches => do
    let b ← choose s
    match b with
    | none => return .choice none none
    | some i =>
      let tree ← branches.fill escaped s i branches.length i
      return .choice b (some tree)
  | .loop _ items binding body => do
    let values ← items s
    let entries ← values.mapM fun v => do
      return Tree.mk body.shape (← body.fill escaped (s.bind binding v))
    return .loop body.shape entries
  | .stream .. => return .text ""
  | .component .. => return .text ""

/-- The tree of the branch at a position. -/
def Branches.fill (escaped : Bool) (s : Scope) (chosen count : Nat) :
    Branches → Nat → Except Error Tree
  | .none, _ => throw (.noSuchChoice chosen count)
  | .more t _, 0 => do
    return .mk t.shape (← t.fill escaped s)
  | .more _ rest, n + 1 => rest.fill escaped s chosen count n

end

mutual

/-- **Scopes that agree on what a template reads fill it with the same.** -/
theorem Template.fill_congr {escaped : Bool} {s s' : Scope} : ∀ t : Template,
    t.ReadsOnly s.bound → t.reads.Agree s s' → t.fill escaped s = t.fill escaped s'
  | .text _, _, _ => rfl
  | .hole _ h rest, hr, ha => by
      obtain ⟨hone, hrest⟩ := Template.agree_hole.mp ha
      rw [Template.fill, Template.fill, h.fill_congr hr.1 hone, rest.fill_congr hr.2 hrest]

theorem Hole.fill_congr {escaped : Bool} {s s' : Scope} : ∀ h : Hole,
    h.ReadsOnly s.bound → h.reads.Agree s s' → h.fill escaped s = h.fill escaped s'
  | .value _ _, hr, ha => by rw [Hole.fill, Hole.fill, hr s s' rfl ha]
  | .choice _ _ branches, hr, ha => by
      obtain ⟨hown, hbranches⟩ := Reads.agree_joinAll.mp ha
      rw [Hole.fill, Hole.fill, hr.1 s s' rfl hown]
      congr 1
      funext b
      cases b with
      | none => rfl
      | some i => simp only [branches.fill_congr i hr.2 hbranches]
  | .loop _ _ binding body, hr, ha => by
      obtain ⟨hown, hbody⟩ := Reads.agree_join.mp ha
      have hentry (v : Value) : body.fill escaped (s.bind binding v) =
          body.fill escaped (s'.bind binding v) :=
        body.fill_congr hr.2 (hbody.bind binding v)
      rw [Hole.fill, Hole.fill, hr.1 s s' rfl hown]
      simp only [hentry]
  | .stream .., _, _ => rfl
  | .component .., _, _ => rfl

theorem Branches.fill_congr {escaped : Bool} {s s' : Scope} {chosen count : Nat} :
    ∀ (bs : Branches) (n : Nat), bs.ReadsOnly s.bound → (∀ q ∈ bs.reads, q.Agree s s') →
    bs.fill escaped s chosen count n = bs.fill escaped s' chosen count n
  | .none, _, _, _ => rfl
  | .more t rest, 0, hr, ha => by
      have hfirst : t.reads.Agree s s' := ha _ List.mem_cons_self
      rw [Branches.fill, Branches.fill, t.fill_congr hr.1 hfirst]
  | .more _ rest, n + 1, hr, ha => by
      rw [Branches.fill, Branches.fill]
      exact rest.fill_congr n hr.2 fun q hq => ha q (List.mem_cons_of_mem _ hq)

end

/-! ## No components inside -/

theorem Tree.handlesOfTrees_eq_nil {ts : List Tree} :
    handlesOfTrees ts = [] ↔ ∀ t ∈ ts, t.handles = [] := by
  induction ts with
  | nil => simp [handlesOfTrees]
  | cons t ts ih => simp [handlesOfTrees, ih]

mutual

/-- Where a template says what it reads, it is filled without components. -/
theorem Template.handles_fill {escaped : Bool} {s : Scope} : ∀ (t : Template) {fs : List Filling},
    t.reads ≠ .anything → t.fill escaped s = .ok fs → Tree.handlesOfEach fs = []
  | .text _, _, _, h => by
      obtain rfl := Except.ok.inj h
      rfl
  | .hole _ h rest, _, hr, hfill => by
      obtain ⟨hone, hrest⟩ := Template.reads_hole_ne.mp hr
      rw [Template.fill] at hfill
      obtain ⟨f, hf, hfill⟩ := bind_ok hfill
      obtain ⟨fs, hfs, hfill⟩ := bind_ok hfill
      obtain rfl := Except.ok.inj hfill
      rw [Tree.handlesOfEach, h.handles_fill hone hf, rest.handles_fill hrest hfs]
      rfl

theorem Hole.handles_fill {escaped : Bool} {s : Scope} : ∀ (h : Hole) {f : Filling},
    h.reads ≠ .anything → h.fill escaped s = .ok f → Tree.handlesOf f = []
  | .value .., _, _, hfill => by
      rw [Hole.fill] at hfill
      obtain ⟨v, -, hfill⟩ := bind_ok hfill
      obtain rfl := Except.ok.inj hfill
      rfl
  | .choice _ _ branches, _, hr, hfill => by
      obtain ⟨-, hbranches⟩ := Reads.joinAll_ne_anything.mp hr
      rw [Hole.fill] at hfill
      obtain ⟨b, -, hfill⟩ := bind_ok hfill
      cases b with
      | none =>
          obtain rfl := Except.ok.inj hfill
          rfl
      | some i =>
          obtain ⟨tree, htree, hfill⟩ := bind_ok hfill
          obtain rfl := Except.ok.inj hfill
          exact branches.handles_fill i hbranches htree
  | .loop _ _ binding body, _, hr, hfill => by
      obtain ⟨-, hbody⟩ := Reads.join_ne_anything.mp hr
      rw [Hole.fill] at hfill
      obtain ⟨values, -, hfill⟩ := bind_ok hfill
      obtain ⟨entries, hentries, hfill⟩ := bind_ok hfill
      obtain rfl := Except.ok.inj hfill
      refine Tree.handlesOfTrees_eq_nil.mpr fun t ht => ?_
      -- each entry is the body, filled for one value
      obtain ⟨v, -, hv⟩ := mapM_ok hentries t ht
      obtain ⟨fs, hfs, hv⟩ := bind_ok hv
      obtain rfl := Except.ok.inj hv
      exact body.handles_fill hbody hfs
  | .stream .., _, hr, _ => absurd rfl hr
  | .component .., _, hr, _ => absurd rfl hr

theorem Branches.handles_fill {escaped : Bool} {s : Scope} {chosen count : Nat} :
    ∀ (bs : Branches) (n : Nat) {tree : Tree}, (∀ q ∈ bs.reads, q ≠ .anything) →
    bs.fill escaped s chosen count n = .ok tree → tree.handles = []
  | .none, _, _, _, hfill => by cases hfill
  | .more t _, 0, _, hr, hfill => by
      have hfirst : t.reads ≠ .anything := hr _ List.mem_cons_self
      rw [Branches.fill] at hfill
      obtain ⟨fs, hfs, hfill⟩ := bind_ok hfill
      obtain rfl := Except.ok.inj hfill
      exact t.handles_fill hfirst hfs
  | .more _ rest, n + 1, _, hr, hfill => by
      rw [Branches.fill] at hfill
      exact rest.handles_fill n (fun q hq => hr q (List.mem_cons_of_mem _ hq)) hfill

end

end ViewSync
