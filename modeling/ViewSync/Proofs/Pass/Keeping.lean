import ViewSync.Proofs.Pass.Rendering
import ViewSync.Proofs.Template.Filling
import ViewSync.Proofs.Tree.Handles

/-!
# Keeping is a saving only

A tree is *current* at a scope when everything in it that a pass might keep is what the callbacks
yield at that scope. Rendering against a tree that is current at an earlier scope, from which the
record of writes tells the way, does the same with change tracking and without: the same tree, the
same effects on the pass, the same failures. And what rendering without change tracking yields is
current at the scope that it was rendered at.
-/

namespace ViewSync

/-- A host with change tracking on or off, and the same otherwise. -/
def Host.tracking (host : Host) (on : Bool) : Host :=
  { host with config := { host.config with changeTracking := on } }

/-! ## Trees that are current -/

mutual

/-- Whatever a pass might keep of these fillings is what the template is filled with at a scope. -/
def Template.CurrentAt (escaped : Bool) (s : Scope) : Template → List Filling → Prop
  | .text _, _ => True
  | .hole .., [] => True
  | .hole _ h rest, f :: fs => h.CurrentAt escaped s f ∧ rest.CurrentAt escaped s fs

/-- The same of one hole. -/
def Hole.CurrentAt (escaped : Bool) (s : Scope) : Hole → Filling → Prop
  | .value reads eval, f => reads ≠ .anything → (Hole.value reads eval).fill escaped s = .ok f
  | .choice reads choose branches, .choice b tree =>
    (reads ≠ .anything → choose s = .ok b) ∧
      ∀ i t, b = some i → tree = some t → branches.CurrentAt escaped s i t
  | .loop reads items binding body, f =>
    (Hole.loop reads items binding body).reads ≠ .anything →
      (Hole.loop reads items binding body).fill escaped s = .ok f
  | _, _ => True

/-- The same of the branch at a position. -/
def Branches.CurrentAt (escaped : Bool) (s : Scope) : Branches → Nat → Tree → Prop
  | .none, _, _ => True
  | .more t _, 0, tree => tree.shape = t.shape → t.CurrentAt escaped s tree.fillings
  | .more _ rest, n + 1, tree => rest.CurrentAt escaped s n tree

end

/-- A tree of a template is current at a scope. -/
def Template.Current (escaped : Bool) (s : Scope) (t : Template) (tree : Tree) : Prop :=
  tree.shape = t.shape → t.CurrentAt escaped s tree.fillings

theorem Template.currentAt_nil {escaped : Bool} {s : Scope} (t : Template) :
    t.CurrentAt escaped s [] := by
  cases t <;> trivial

mutual

/-- Blanking leaves alone what might be kept. -/
theorem Template.currentAt_blank {escaped : Bool} {s : Scope} {gone : List Handle} :
    ∀ (t : Template) (fs : List Filling), t.CurrentAt escaped s fs →
    t.CurrentAt escaped s (Tree.blankEach gone fs)
  | .text _, _, _ => trivial
  | .hole .., [], _ => trivial
  | .hole _ h rest, f :: fs, hc => ⟨h.currentAt_blank f hc.1, rest.currentAt_blank fs hc.2⟩

theorem Hole.currentAt_blank {escaped : Bool} {s : Scope} {gone : List Handle} :
    ∀ (h : Hole) (f : Filling), h.CurrentAt escaped s f →
    h.CurrentAt escaped s (Tree.blankFilling gone f)
  | .value reads eval, f, hc => by
      intro hr
      have hnone : Tree.handlesOf f = [] := Hole.handles_fill (.value reads eval) hr (hc hr)
      rw [Tree.blankFilling_of_disjoint f (by simp [hnone])]
      exact hc hr
  | .loop .., f, hc => by
      intro hr
      have hnone : Tree.handlesOf f = [] := Hole.handles_fill _ hr (hc hr)
      rw [Tree.blankFilling_of_disjoint f (by simp [hnone])]
      exact hc hr
  | .choice _ _ branches, .choice _ (some t), hc => by
      refine ⟨hc.1, ?_⟩
      rintro i _ hi ⟨⟩
      exact branches.currentAt_blank i t (hc.2 i t hi rfl)
  | .choice .., .choice _ none, hc => hc
  | .choice .., .text _, _ => trivial
  | .choice .., .loop .., _ => trivial
  | .choice .., .stream .., _ => trivial
  | .choice .., .component h _, _ => by
      rw [Tree.blankFilling]
      split <;> trivial
  | .stream .., _, _ => trivial
  | .component .., _, _ => trivial

theorem Branches.currentAt_blank {escaped : Bool} {s : Scope} {gone : List Handle} :
    ∀ (bs : Branches) (n : Nat) (tree : Tree), bs.CurrentAt escaped s n tree →
    bs.CurrentAt escaped s n (tree.blank gone)
  | .none, _, _, _ => trivial
  | .more t _, 0, .mk _ fs, hc => fun hshape => t.currentAt_blank fs (hc hshape)
  | .more _ rest, n + 1, tree, hc => rest.currentAt_blank n tree hc

end

theorem Template.Current.blank {escaped : Bool} {s : Scope} {t : Template} {tree : Tree}
    (hc : t.Current escaped s tree) (gone : List Handle) :
    t.Current escaped s (tree.blank gone) := by
  obtain ⟨shape, fs⟩ := tree
  exact fun hshape => t.currentAt_blank fs (hc hshape)

namespace Pass

variable {α β : Type}

/-! ## Outcomes of callbacks as steps -/

theorem ofExcept_bind (x : Except Error α) (f : α → Except Error β) :
    ofExcept (x >>= f) = ofExcept x >>= fun a => ofExcept (f a) := by
  cases x <;> rfl

theorem ofExcept_ok_bind (a : α) (f : α → PassM β) : (ofExcept (.ok a) >>= f) = f a := rfl

theorem ofExcept_mapM (f : α → Except Error β) (l : List α) :
    (l.mapM fun a => ofExcept (f a)) = ofExcept (l.mapM f) := by
  induction l with
  | nil => rfl
  | cons a l ih =>
      rw [List.mapM_cons, List.mapM_cons, ih, ofExcept_bind]
      congr 1
      funext b
      rw [ofExcept_bind]
      rfl

/-! ## Rendering from scratch -/

variable {host : Host} {owner : Option StreamEntry}

mutual

/-- Where a template says what it reads, rendering it from scratch is filling it. -/
theorem holes_fresh (s : Scope) : ∀ t : Template, t.reads ≠ .anything →
    holes host owner s t [] = ofExcept (t.fill host.config.escapeHtml s)
  | .text _, _ => rfl
  | .hole _ h rest, hr => by
      obtain ⟨hone, hrest⟩ := Template.reads_hole_ne.mp hr
      unfold holes
      rw [List.head?_nil, List.tail_nil, hole_fresh s h hone, holes_fresh s rest hrest,
        Template.fill, ofExcept_bind]
      congr 1
      funext f
      rw [ofExcept_bind]
      rfl

theorem hole_fresh (s : Scope) : ∀ h : Hole, h.reads ≠ .anything →
    hole host owner s h none = ofExcept (h.fill host.config.escapeHtml s)
  | .value reads eval, _ => by
      unfold hole
      rw [Hole.fill, ofExcept_bind]
      rfl
  | .choice reads choose branches, hr => by
      obtain ⟨-, hbranches⟩ := Reads.joinAll_ne_anything.mp hr
      unfold hole
      rw [Hole.fill, ofExcept_bind]
      simp only [branchBefore, branchOf, treeOfBranch]
      congr 1
      funext b
      cases b with
      | none => rfl
      | some i =>
          simp only [branch_fresh s branches i hbranches]
          rw [ofExcept_bind]
          rfl
  | .loop reads items binding body, hr => by
      obtain ⟨-, hbody⟩ := Reads.join_ne_anything.mp hr
      unfold hole
      rw [Hole.fill, ofExcept_bind]
      simp only [keptEntries]
      congr 1
      funext values
      rw [ofExcept_bind, ← ofExcept_mapM]
      have hentry (v : Value) :
          (do return Tree.mk body.shape (← holes host owner (s.bind binding v) body []) :
            PassM Tree) =
          ofExcept (do
            return Tree.mk body.shape (← body.fill host.config.escapeHtml (s.bind binding v))) := by
        rw [holes_fresh (s.bind binding v) body hbody, ofExcept_bind]
        rfl
      simp only [hentry]
      rfl
  | .stream .., hr => absurd rfl hr
  | .component .., hr => absurd rfl hr

theorem branch_fresh (s : Scope) {chosen count : Nat} : ∀ (bs : Branches) (n : Nat),
    (∀ q ∈ bs.reads, q ≠ .anything) →
    branch host owner s none chosen count bs n =
      ofExcept (bs.fill host.config.escapeHtml s chosen count n)
  | .none, _, _ => by
      unfold branch
      rfl
  | .more t rest, 0, hr => by
      have hfirst : t.reads ≠ .anything := hr _ List.mem_cons_self
      unfold branch
      simp only [keptFillings]
      rw [ofExcept_ok_bind, holes_fresh s t hfirst, Branches.fill, ofExcept_bind]
      rfl
  | .more _ rest, n + 1, hr => by
      unfold branch
      rw [Branches.fill]
      exact branch_fresh s rest n fun q hq => hr q (List.mem_cons_of_mem _ hq)

end

/-! ## Keeping what is current -/

theorem followAll_nil (r : Roster) : r.followAll [] = r := by
  have hnone : Roster.reach r.tree? r.slots.length r.seen [] = r.seen := by
    cases r.slots.length <;> rfl
  rw [Roster.followAll, hnone]

theorem forM_pure {f : α → PassM PUnit} {l : List α} (h : ∀ a ∈ l, f a = pure ()) :
    l.forM f = pure () := by
  induction l with
  | nil => rfl
  | cons a l ih =>
      change (f a >>= fun _ => l.forM f) = pure ()
      rw [h a List.mem_cons_self, pure_bind]
      exact ih fun b hb => h b (List.mem_cons_of_mem _ hb)

/-- Nothing is followed from trees without components. -/
theorem forM_followTree {ts : List Tree} (h : Tree.handlesOfTrees ts = []) :
    (ts.forM fun t => onRoster (·.followTree t)) = (pure () : PassM PUnit) := by
  refine forM_pure fun t ht => ?_
  have hsame : (fun r : Roster => r.followTree t) = id := by
    funext r
    rw [Roster.followTree, Tree.handlesOfTrees_eq_nil.mp h t ht]
    exact followAll_nil r
  rw [hsame]
  rfl

theorem mayKeep_off (s : Scope) (reads : Reads) : mayKeep (host.tracking false) s reads = false :=
  rfl

theorem mayKeep_on (s : Scope) (reads : Reads) :
    mayKeep (host.tracking true) s reads = reads.intactIn s.assigns := by
  simp [mayKeep, Host.tracking]

theorem keptText_off (s : Scope) (reads : Reads) (before : Option Filling) :
    keptText (host.tracking false) s reads before = none := by
  unfold keptText
  split
  · rw [mayKeep_off]
    rfl
  · rfl

theorem branchOf_off (s : Scope) (reads : Reads) (choose : Callback (Option Nat))
    (before : Option (Option Nat × Option Tree)) :
    branchOf (host.tracking false) s reads choose before = choose s := by
  unfold branchOf
  split
  · rw [mayKeep_off]
    rfl
  · rfl

theorem keptEntries_off (s : Scope) (reads : Reads) (body : Template) (before : Option Filling) :
    keptEntries (host.tracking false) s reads body before = none := by
  unfold keptEntries
  split
  · rw [mayKeep_off]
    simp
  · rfl

theorem value_off (s : Scope) (reads : Reads) (eval : Callback Value) (before : Option Filling) :
    hole (host.tracking false) owner s (.value reads eval) before =
      ofExcept ((Hole.value reads eval).fill host.config.escapeHtml s) := by
  unfold hole
  rw [keptText_off, Hole.fill, ofExcept_bind]
  rfl

theorem loop_off (s : Scope) (reads : Reads) (items : Callback (List Value)) (binding : String)
    (body : Template) (hr : (Hole.loop reads items binding body).reads ≠ .anything)
    (before : Option Filling) :
    hole (host.tracking false) owner s (.loop reads items binding body) before =
      ofExcept ((Hole.loop reads items binding body).fill host.config.escapeHtml s) := by
  -- without change tracking the entries from before play no part
  have hsame : hole (host.tracking false) owner s (.loop reads items binding body) before =
      hole (host.tracking false) owner s (.loop reads items binding body) none := by
    unfold hole
    rw [keptEntries_off, keptEntries_off]
  rw [hsame]
  exact hole_fresh s _ hr

theorem branchOf_on {s : Scope} {reads : Reads} {choose : Callback (Option Nat)}
    {before : Option Filling}
    (h : ∀ b tree, before = some (.choice b tree) → reads.intactIn s.assigns = true →
      choose s = .ok b) :
    branchOf (host.tracking true) s reads choose (branchBefore before) = choose s := by
  cases before with
  | none => rfl
  | some f =>
      cases f with
      | choice b tree =>
          change (if mayKeep (host.tracking true) s reads then .ok b else choose s) = choose s
          rw [mayKeep_on]
          split
          · next hintact => exact (h b tree rfl hintact).symm
          · rfl
      | text _ => rfl
      | loop _ _ => rfl
      | stream _ _ _ => rfl
      | component _ _ => rfl

mutual

/-- **Rendering against fillings that are current does the same with change tracking and
without.** -/
theorem holes_tracking {base a : Assigns} (hsince : Assigns.Since base a)
    (owner : Option StreamEntry) : ∀ (t : Template) (locals : List (String × Value))
    (before : List Filling), t.ReadsOnly (Scope.bound ⟨a, locals⟩) →
    t.CurrentAt host.config.escapeHtml ⟨base, locals⟩ before →
    holes (host.tracking true) owner ⟨a, locals⟩ t before =
      holes (host.tracking false) owner ⟨a, locals⟩ t before
  | .text _, _, _, _, _ => by
      unfold holes
      rfl
  | .hole _ h rest, locals, before, hr, hc => by
      have hone : ∀ f, before.head? = some f →
          h.CurrentAt host.config.escapeHtml ⟨base, locals⟩ f := by
        cases before with
        | nil => exact fun _ h => by cases h
        | cons f fs =>
            rintro _ ⟨⟩
            exact hc.1
      have hrest : rest.CurrentAt host.config.escapeHtml ⟨base, locals⟩ before.tail := by
        cases before with
        | nil => exact rest.currentAt_nil
        | cons f fs => exact hc.2
      unfold holes
      rw [hole_tracking hsince owner h locals before.head? hr.1 hone,
        holes_tracking hsince owner rest locals before.tail hr.2 hrest]

theorem hole_tracking {base a : Assigns} (hsince : Assigns.Since base a)
    (owner : Option StreamEntry) : ∀ (h : Hole) (locals : List (String × Value))
    (before : Option Filling), h.ReadsOnly (Scope.bound ⟨a, locals⟩) →
    (∀ f, before = some f → h.CurrentAt host.config.escapeHtml ⟨base, locals⟩ f) →
    hole (host.tracking true) owner ⟨a, locals⟩ h before =
      hole (host.tracking false) owner ⟨a, locals⟩ h before
  | .value reads eval, locals, before, hr, hc => by
      rw [value_off]
      unfold hole
      cases hk : keptText (host.tracking true) ⟨a, locals⟩ reads before with
      | none =>
          rw [Hole.fill, ofExcept_bind]
          rfl
      | some text =>
          obtain ⟨hbefore, hintact⟩ := of_keptText hk
          -- the text that is kept is what the callback gave at `base`, and would give again
          have hagree := Reads.agree_of_intactIn hsince locals hintact
          rw [(Hole.value reads eval).fill_congr hr hagree, hc _ hbefore hagree.ne_anything]
          rfl
  | .choice reads choose branches, locals, before, hr, hc => by
      -- both choose the same branch, and so go on from the same tree of it
      have hchosen : branchOf (host.tracking true) ⟨a, locals⟩ reads choose (branchBefore before) =
          choose ⟨a, locals⟩ := by
        refine branchOf_on fun b tree hbefore hintact => ?_
        have hagree := Reads.agree_of_intactIn hsince locals hintact
        rw [hr.1 _ _ rfl hagree]
        exact (hc _ hbefore).1 hagree.ne_anything
      unfold hole
      dsimp only
      rw [branchOf_off, hchosen]
      congr 1
      funext b
      cases b with
      | none => rfl
      | some i =>
          have hbranch : ∀ t, treeOfBranch (some i) (branchBefore before) = some t →
              branches.CurrentAt host.config.escapeHtml ⟨base, locals⟩ i t := fun t ht =>
            (hc _ (treeOfBranch_some ht)).2 i t rfl rfl
          dsimp only
          rw [branch_tracking hsince owner branches i locals _ hr.2 hbranch]
  | .loop reads items binding body, locals, before, hr, hc => by
      cases hk : keptEntries (host.tracking true) ⟨a, locals⟩ reads body before with
      | none =>
          -- entries are rendered from scratch, so there is nothing that must be current
          have hentry (v : Value) := holes_tracking hsince owner body
            ((binding, v) :: locals) [] hr.2 body.currentAt_nil
          unfold hole
          rw [hk, keptEntries_off]
          simp only [Scope.bind, hentry]
      | some entries =>
          obtain ⟨hbefore, hitems, hbody⟩ := of_keptEntries hk
          have hagree :
              (Hole.loop reads items binding body).reads.Agree ⟨a, locals⟩ ⟨base, locals⟩ :=
            Reads.agree_join.mpr ⟨Reads.agree_of_intactIn hsince locals hitems,
              Reads.agree_of_intactIn hsince locals hbody⟩
          have hfill := hc _ hbefore hagree.ne_anything
          rw [loop_off _ _ _ _ _ hagree.ne_anything,
            (Hole.loop reads items binding body).fill_congr hr hagree, hfill]
          -- keeping entries follows their components, of which there are none
          have hnone : Tree.handlesOfTrees entries = [] :=
            Hole.handles_fill _ hagree.ne_anything hfill
          unfold hole
          rw [hk]
          dsimp only
          rw [forM_followTree hnone]
          rfl
  | .stream name binding body, locals, before, hr, _ => by
      have hentry (entry : StreamEntry) (item key : Value) :=
        holes_tracking hsince (some entry) body
          ((keyLocal, key) :: (binding, item) :: locals) [] hr body.currentAt_nil
      unfold hole
      simp only [Scope.bind, hentry]
  | .component kind id props, _, _, _, _ => by
      unfold hole
      rfl

theorem branch_tracking {base a : Assigns} (hsince : Assigns.Since base a)
    (owner : Option StreamEntry) {chosen count : Nat} : ∀ (bs : Branches) (n : Nat)
    (locals : List (String × Value)) (before : Option Tree),
    bs.ReadsOnly (Scope.bound ⟨a, locals⟩) →
    (∀ t, before = some t → bs.CurrentAt host.config.escapeHtml ⟨base, locals⟩ n t) →
    branch (host.tracking true) owner ⟨a, locals⟩ before chosen count bs n =
      branch (host.tracking false) owner ⟨a, locals⟩ before chosen count bs n
  | .none, _, _, _, _, _ => by
      unfold branch
      rfl
  | .more t _, 0, locals, before, hr, hc => by
      unfold branch
      cases hk : keptFillings t before with
      | error e => rfl
      | ok kept =>
          have hkept : t.CurrentAt host.config.escapeHtml ⟨base, locals⟩ kept := by
            rcases keptFillings_cases hk with rfl | ⟨tree, hbefore, hshape, rfl⟩
            · exact t.currentAt_nil
            · exact hc tree hbefore hshape
          rw [ofExcept_ok_bind, ofExcept_ok_bind,
            holes_tracking hsince owner t locals kept hr.1 hkept]
  | .more _ rest, n + 1, locals, before, hr, hc => by
      unfold branch
      exact branch_tracking hsince owner rest n locals before hr.2 hc

end

/-- A tree that is current at an earlier scope may be rendered against either way. -/
theorem template_tracking {base a : Assigns} (hsince : Assigns.Since base a) {t : Template}
    (hr : t.ReadsOnly []) {before : Option Tree}
    (hc : ∀ tree, before = some tree →
      t.Current host.config.escapeHtml (Scope.ofAssigns base) tree) :
    template (host.tracking true) (Scope.ofAssigns a) t before =
      template (host.tracking false) (Scope.ofAssigns a) t before := by
  unfold template
  cases hk : keptFillings t before with
  | error e => rfl
  | ok kept =>
      have hkept : t.CurrentAt host.config.escapeHtml ⟨base, []⟩ kept := by
        rcases keptFillings_cases hk with rfl | ⟨tree, hbefore, hshape, rfl⟩
        · exact t.currentAt_nil
        · exact hc tree hbefore hshape
      rw [ofExcept_ok_bind, ofExcept_ok_bind, Scope.ofAssigns,
        holes_tracking hsince none t [] kept hr hkept]

/-! ## What is rendered is current -/

mutual

theorem current_holes (owner : Option StreamEntry) (s : Scope) : ∀ (t : Template)
    (before : List Filling),
    Yields (fun _ => True) (holes (host.tracking false) owner s t before)
      (t.CurrentAt host.config.escapeHtml s)
  | .text _, _ => fun _ _ => ⟨trivial, fun _ _ => trivial⟩
  | .hole _ h rest, before => by
      unfold holes
      refine .bind (current_hole owner s h before.head?) fun f hf => ?_
      refine .bind (current_holes owner s rest before.tail) fun fs hfs => ?_
      exact .pure ⟨hf, hfs⟩

theorem current_hole (owner : Option StreamEntry) (s : Scope) : ∀ (h : Hole)
    (before : Option Filling),
    Yields (fun _ => True) (hole (host.tracking false) owner s h before)
      (h.CurrentAt host.config.escapeHtml s)
  | .value reads eval, before => by
      rw [value_off]
      exact .ofExcept fun f hf _ => hf
  | .choice reads choose branches, before => by
      unfold hole
      dsimp only
      rw [branchOf_off]
      refine .bind (.ofExcept (Q := fun b => choose s = .ok b) fun b hb => hb) fun b hb => ?_
      cases b with
      | none => exact .pure ⟨fun _ => hb, fun _ _ h => by cases h⟩
      | some i =>
          refine .bind (current_branch owner s branches i _) fun tree htree => ?_
          refine .pure ⟨fun _ => hb, ?_⟩
          rintro _ _ ⟨⟩ ⟨⟩
          exact htree
  | .loop reads items binding body, before => by
      by_cases hr : (Hole.loop reads items binding body).reads = .anything
      · -- entries that may read anything are never kept
        exact fun _ _ => ⟨trivial, fun _ _ hne => absurd hr hne⟩
      · rw [loop_off _ _ _ _ _ hr]
        exact .ofExcept fun f hf _ => hf
  | .stream .., _ => fun _ _ => ⟨trivial, fun _ _ => trivial⟩
  | .component .., _ => fun _ _ => ⟨trivial, fun _ _ => trivial⟩

theorem current_branch (owner : Option StreamEntry) (s : Scope) {chosen count : Nat} :
    ∀ (bs : Branches) (n : Nat) (before : Option Tree),
    Yields (fun _ => True) (branch (host.tracking false) owner s before chosen count bs n)
      (bs.CurrentAt host.config.escapeHtml s n)
  | .none, _, _ => fun _ _ => ⟨trivial, fun _ _ => trivial⟩
  | .more t _, 0, before => by
      unfold branch
      refine .bind (.ofExcept (Q := fun _ => True) fun _ _ => trivial) fun kept _ => ?_
      refine .bind (current_holes owner s t kept) fun fs hfs => ?_
      exact .pure fun _ => hfs
  | .more _ rest, n + 1, before => by
      unfold branch
      exact current_branch owner s rest n before

end

/-- **What is rendered without change tracking is current at the scope it was rendered at.** -/
theorem current_template (host : Host) (s : Scope) (t : Template) (before : Option Tree) :
    Yields (fun _ => True) (template (host.tracking false) s t before)
      (t.Current host.config.escapeHtml s) := by
  refine .bind (.ofExcept (Q := fun _ => True) fun _ _ => trivial) fun kept _ => ?_
  refine .bind (current_holes none s t kept) fun fs hfs => ?_
  exact .pure fun _ => hfs

end Pass

end ViewSync
