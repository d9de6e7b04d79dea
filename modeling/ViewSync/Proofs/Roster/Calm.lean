import ViewSync.Proofs.Pass.Still
import ViewSync.Proofs.Roster.Sighted
import ViewSync.Proofs.Roster.Worklist

/-!
# Rendering a still tree again

Where all that a tree refers to is at rest, rendering it again from a scope at which it is still
leaves the tree as it is. Nothing is queued, no flush is taken and no failure noted; what the pass
sees is what the tree leads to.
-/

namespace ViewSync.Roster

open ViewSync.Pass ViewSync.Tree

variable {kinds : Kinds} {r r₀ : Roster} {h : Handle}

/-! ## Components at rest -/

/-- A reference finds its component under a handle, and leaves it as it is. -/
def Rests (kinds : Kinds) (r : Roster) (id : String) (kind : KindRef) (props : Fields)
    (h : Handle) : Prop :=
  ∃ c, r.handle? id = some h ∧ r.get? h = some c ∧ c.kind.name = kind.name ∧
    (kinds c.kind.key).update props c.assigns = (c.assigns, none) ∧ c.isStale = false

/-- A reference to a component at rest follows it, and does no more than keep its state. -/
theorem refer_rests {id : String} {kind : KindRef} {props : Fields}
    (hborn : r.stillborn = []) (hrests : Rests kinds r id kind props h) :
    ∃ undo, r.refer kinds id kind props none =
      (.ok (h, false), ({ r with undo } : Roster).follow h) := by
  obtain ⟨c, hid, hc, hkind, hupdate, hstale⟩ := hrests
  refine ⟨(r.keepState c).undo, ?_⟩
  have hput : (r.keepState c).put h c = r.keepState c := put_self hc
  unfold refer
  rw [hid]
  dsimp only
  rw [if_neg (by rw [hborn]; exact List.not_mem_nil), hc]
  dsimp only
  rw [if_neg (not_not_intro hkind)]
  unfold referLive
  rw [hupdate]
  have hsame : ({ c with assigns := c.assigns, owner := (none : Option StreamEntry) <|> c.owner } :
      Component) = c := rfl
  dsimp only
  rw [hsame, hstale, hput]
  rfl

/-! ## What is seen -/

/-- A set of handles contains all that the trees of its components refer to. -/
def ClosedUnder (R : Handle → Prop) (tree? : Handle → Option Tree) : Prop :=
  ∀ h t, R h → tree? h = some t → ∀ k ∈ t.handles, R k

/-- What is seen once some handles are followed is what was seen, and all that they lead to. -/
theorem mem_followAll {hs : List Handle}
    (hclosed : ClosedUnder (· ∈ r.seen) r.tree?) (k : Handle) :
    k ∈ (r.followAll hs).seen ↔ k ∈ r.seen ∨ ∃ b ∈ hs, Leads (r.tree? · = some ·) b k := by
  constructor
  · intro hk
    exact ((mem_seen_followAll r hs k).mp hk).imp_right fun ⟨b, hb, hl⟩ =>
      ⟨b, hb, hl.mono fun _ _ ht => ht.2⟩
  · have hfollowed := followed_followAll r hs
    rintro (hk | ⟨b, hb, hl⟩)
    · exact hfollowed.before k hk
    · induction hl with
      | self => exact hfollowed.frontier b hb
      | @step x y t _ ht hy ih =>
          by_cases hx : x ∈ r.seen
          · exact hfollowed.before y (hclosed x t hx ht y hy)
          · exact hfollowed.closed x ih hx t ht y hy

/-- All that a pass has done so far is to follow some handles. -/
structure Looked (r₀ : Roster) (p₀ : Pass) (hs : List Handle) (p : Pass) : Prop where
  /-- Nothing but what is seen has changed, and the undo record. -/
  roster : ∃ seen undo, p.roster = { r₀ with seen, undo }
  /-- What is seen is what the handles lead to. -/
  seen : ∀ k, k ∈ p.roster.seen ↔ ∃ b ∈ hs, Leads (r₀.tree? · = some ·) b k
  /-- No flush was taken. -/
  flushes : p.flushes = p₀.flushes
  /-- No failure was noted. -/
  errors : p.errors = p₀.errors

namespace Looked

variable {p₀ p : Pass} {hs : List Handle}

theorem start (hseen : p.roster.seen = []) : Looked p.roster p [] p where
  roster := ⟨_, _, rfl⟩
  seen k := by
    rw [hseen]
    simp
  flushes := rfl
  errors := rfl

theorem get?_eq (hp : Looked r₀ p₀ hs p) (k : Handle) : p.roster.get? k = r₀.get? k := by
  obtain ⟨seen, undo, hroster⟩ := hp.roster
  rw [hroster]
  rfl

theorem tree?_eq (hp : Looked r₀ p₀ hs p) : p.roster.tree? = r₀.tree? := by
  funext k
  rw [tree?, hp.get?_eq, tree?]

/-- All is seen that what is seen leads to. -/
theorem closed (hp : Looked r₀ p₀ hs p) : ClosedUnder (· ∈ p.roster.seen) p.roster.tree? := by
  intro x t hx ht y hy
  obtain ⟨b, hb, hl⟩ := (hp.seen x).mp hx
  exact (hp.seen y).mpr ⟨b, hb, hl.step (hp.tree?_eq ▸ ht) hy⟩

theorem refer {id : String} {kind : KindRef} {props : Fields} (hp : Looked r₀ p₀ hs p)
    (hborn : r₀.stillborn = []) (hrests : Rests kinds r₀ id kind props h) :
    ∃ r, p.roster.refer kinds id kind props none = (.ok (h, false), r) ∧
      Looked r₀ p₀ (hs ++ [h]) { p with roster := r } := by
  obtain ⟨seen, undo₀, hroster⟩ := hp.roster
  have hids (id : String) : p.roster.handle? id = r₀.handle? id := by rw [hroster]; rfl
  obtain ⟨undo, hrefer⟩ := refer_rests (r := p.roster) (by rw [hroster]; exact hborn)
    (by simpa only [Rests, hp.get?_eq, hids] using hrests)
  refine ⟨_, hrefer, ?_, fun k => ?_, hp.flushes, hp.errors⟩
  · refine ⟨(({ p.roster with undo } : Roster).follow h).seen, undo, ?_⟩
    rw [hroster]
    rfl
  · refine (mem_followAll (r := { p.roster with undo }) hp.closed k).trans ?_
    change k ∈ p.roster.seen ∨ (∃ b ∈ [h], Leads (p.roster.tree? · = some ·) b k) ↔ _
    rw [hp.seen, hp.tree?_eq]
    simp [or_and_right, exists_or]

end Looked

/-! ## Steps that leave everything as it is -/

/-- A step goes well with a result, and follows some handles. -/
def Calm {α : Type} (r₀ : Roster) (p₀ : Pass) (x : PassM α) (a : α) (hs : List Handle) : Prop :=
  ∀ gs p, Looked r₀ p₀ gs p → ∃ q, x.run p = (.ok a, q) ∧ Looked r₀ p₀ (gs ++ hs) q

namespace Calm

variable {α β : Type} {p₀ : Pass}

theorem pure {a : α} : Calm r₀ p₀ (pure a) a [] :=
  fun gs p hp => ⟨p, rfl, (List.append_nil gs).symm ▸ hp⟩

theorem ofExcept_bind {x : Except Error α} {f : α → PassM β} {a : α} {b : β} {hs : List Handle}
    (hx : x = .ok a) (hf : Calm r₀ p₀ (f a) b hs) :
    Calm r₀ p₀ (Pass.ofExcept x >>= f) b hs := by
  rw [hx]
  exact hf

theorem bind {x : PassM α} {f : α → PassM β} {a : α} {b : β} {hs hs' : List Handle}
    (hx : Calm r₀ p₀ x a hs) (hf : Calm r₀ p₀ (f a) b hs') :
    Calm r₀ p₀ (x >>= f) b (hs ++ hs') := by
  intro gs p hp
  obtain ⟨q, hrun, hq⟩ := hx gs p hp
  obtain ⟨q', hrun', hq'⟩ := hf (gs ++ hs) q hq
  refine ⟨q', ?_, List.append_assoc gs hs hs' ▸ hq'⟩
  rw [run_bind, hrun]
  exact hrun'

/-- A step with a result that does not follow anything more. -/
theorem bind_pure {x : PassM α} {a : α} {hs : List Handle} (hx : Calm r₀ p₀ x a hs) (f : α → β) :
    Calm r₀ p₀ (do return f (← x)) (f a) hs := by
  have hdone := hx.bind (f := fun a => (Pure.pure (f a) : PassM β)) .pure
  rwa [List.append_nil] at hdone

theorem mapM {f : β → PassM Tree} {bs : List β} {ts : List Tree}
    (h : List.Forall₂ (fun b t => Calm r₀ p₀ (f b) (still t) (still t).handles) bs ts) :
    Calm r₀ p₀ (bs.mapM f) (stillTrees ts) (handlesOfTrees (stillTrees ts)) := by
  induction h with
  | nil => exact pure
  | @cons b t bs ts hb _ ih =>
      rw [List.mapM_cons]
      exact bind hb (ih.bind_pure (still t :: ·))

end Calm

end ViewSync.Roster

namespace ViewSync

/-! ## Trees that refer to components at rest -/

mutual

/-- Every reference in some fillings is to a component at rest, under the handle that is there.
Where a list would be put together anew, its entries are lined up with the items. -/
def Template.RestsAt (rests : String → KindRef → Fields → Handle → Prop) (s : Scope) :
    Template → List Filling → Prop
  | .text _, _ => True
  | .hole .., [] => True
  | .hole _ h rest, f :: fs => h.RestsAt rests s f ∧ rest.RestsAt rests s fs

/-- The same of one hole. A stream with nothing waiting refers to nothing. -/
def Hole.RestsAt (rests : String → KindRef → Fields → Handle → Prop) (s : Scope) :
    Hole → Filling → Prop
  | .choice _ _ branches, .choice (some i) (some t) => branches.RestsAt rests s i t
  | .loop _ items binding body, .loop _ entries =>
    ∀ values, items s = .ok values → ∀ e ∈ values.zip entries,
      body.RestsAt rests (s.bind binding e.1) e.2.fillings
  | .component kind id props, f =>
    ∃ i fields h changed, id s = .ok i ∧ props s = .ok fields ∧ f = .component h changed ∧
      rests i kind fields h
  | _, _ => True

/-- The same of the branch at a position. -/
def Branches.RestsAt (rests : String → KindRef → Fields → Handle → Prop) (s : Scope) :
    Branches → Nat → Tree → Prop
  | .none, _, _ => True
  | .more t _, 0, tree => t.RestsAt rests s tree.fillings
  | .more _ rest, n + 1, tree => rest.RestsAt rests s n tree

end

namespace Roster

open ViewSync.Pass ViewSync.Tree

variable {host : Host} {r₀ : Roster} {p₀ : Pass} {s : Scope} {dry : String → Prop}

theorem calm_component (hborn : r₀.stillborn = []) {kind : KindRef} {id : Callback String}
    {props : Callback Fields} {i : String} {fields : Fields} {h : Handle} (hid : id s = .ok i)
    (hprops : props s = .ok fields) (hrests : Rests host.kinds r₀ i kind fields h) :
    Calm r₀ p₀ (component host none s kind id props) (.component h false) [h] := by
  intro gs p hp
  obtain ⟨r, hrefer, hlooked⟩ := hp.refer hborn hrests
  refine ⟨_, ?_, hlooked⟩
  unfold component
  rw [run_tryCatch, run_bind, run_refer, hid, hprops]
  dsimp only
  rw [hrefer]
  rfl

theorem calm_takeFlush (name : String) (hdry : p₀.flushes.get? name = none) :
    Calm r₀ p₀ (takeFlush name) none [] := by
  intro gs p hp
  have hnone : p.flushes.get? name = none := hp.flushes ▸ hdry
  refine ⟨{ p with flushes := p.flushes.erase name }, ?_, ?_⟩
  · change (Except.ok (p.flushes.get? name), _) = _
    rw [hnone]
  · rw [Keyed.erase_of_get?_eq_none hnone, List.append_nil]
    exact hp

/-- A tree of the template that fits is kept in all of its fillings. -/
theorem keptFillings_of_fits {t : Template} {fs : List Filling} (hfits : t.shape.Fits fs) :
    keptFillings t (some (.mk t.shape fs)) = .ok fs := by
  change (if t.shape = t.shape then (checkFit t.shape fs.length).map fun _ => fs else .ok []) =
    .ok fs
  rw [if_pos rfl, checkFit_eq (t.shape.wellFormed_of_fits fs hfits).1]
  rfl

section Kept

variable {kept : Bool} {reads : Reads} (hs : s.assigns.before = [])
include hs

theorem keptText_settled (text : String) :
    keptText host s reads (if kept then some (.text text) else none) =
      if kept && host.keeps reads then some text else none := by
  cases kept with
  | false => rfl
  | true =>
      rw [Bool.true_and, ← mayKeep_settled host hs]
      rfl

theorem branchOf_settled {choose : Callback (Option Nat)} {b : Option Nat} {tree : Option Tree}
    (h : (kept && host.keeps reads) = false → choose s = .ok b) :
    branchOf host s reads choose (branchBefore (if kept then some (.choice b tree) else none)) =
      .ok b := by
  cases kept with
  | false => exact h rfl
  | true =>
      change (if mayKeep host s reads then .ok b else choose s) = .ok b
      rw [mayKeep_settled host hs]
      split
      · rfl
      · next hkeeps => exact h (by simpa using hkeeps)

theorem keptEntries_settled (body : Template) (entries : List Tree) :
    keptEntries host s reads body (if kept then some (.loop body.shape entries) else none) =
      if kept && host.keeps reads && host.keeps body.reads then some entries else none := by
  cases kept with
  | false => rfl
  | true =>
      change (if decide (body.shape = body.shape) && mayKeep host s reads &&
        mayKeep host s body.reads then some entries else none) = _
      rw [mayKeep_settled host hs, mayKeep_settled host hs, decide_eq_true rfl]

end Kept

mutual

theorem calm_holes (hborn : r₀.stillborn = [])
    (hdry : ∀ name, dry name → p₀.flushes.get? name = none) :
    ∀ (t : Template) (kept : Bool) (s : Scope) (fs : List Filling), s.assigns.before = [] →
    t.shape.Fits fs → t.StillAt host dry kept s fs → t.RestsAt (Rests host.kinds r₀) s fs →
    Calm r₀ p₀ (holes host none s t (if kept then fs else [])) (stillEach fs)
      (handlesOfEach (stillEach fs))
  | .text _, kept, s, fs, _, hfits, _, _ => by
      obtain rfl : fs = [] := by simpa [Template.shape, Shape.Fits] using hfits
      unfold holes
      exact .pure
  | .hole _ h rest, kept, s, [], _, hfits, _, _ => absurd hfits (by
      simp [Template.shape, Shape.Fits])
  | .hole _ h rest, kept, s, f :: fs, hs, hfits, hstill, hrests => by
      obtain ⟨hf, hfs⟩ : h.shape.Fits f ∧ rest.shape.Fits fs := by
        simpa [Template.shape, Shape.Fits] using hfits
      have hhole := calm_hole hborn hdry h kept s f hs hf hstill.1 hrests.1
      have hholes := calm_holes hborn hdry rest kept s fs hs hfs hstill.2 hrests.2
      have hhead : (if kept then f :: fs else []).head? = if kept then some f else none := by
        cases kept <;> rfl
      have htail : (if kept then f :: fs else []).tail = if kept then fs else [] := by
        cases kept <;> rfl
      unfold holes
      rw [hhead, htail]
      exact hhole.bind (hholes.bind_pure (stillOf f :: ·))

theorem calm_hole (hborn : r₀.stillborn = [])
    (hdry : ∀ name, dry name → p₀.flushes.get? name = none) :
    ∀ (h : Hole) (kept : Bool) (s : Scope) (f : Filling), s.assigns.before = [] →
    h.shape.Fits f → h.StillAt host dry kept s f → h.RestsAt (Rests host.kinds r₀) s f →
    Calm r₀ p₀ (hole host none s h (if kept then some f else none)) (stillOf f)
      (handlesOf (stillOf f))
  | .value reads eval, kept, s, .text text, hs, _, hstill, _ => by
      unfold hole
      rw [keptText_settled hs]
      by_cases hkept : (kept && host.keeps reads) = true
      · rw [if_pos hkept]
        exact .pure
      · rw [if_neg hkept]
        obtain ⟨v, heval, hv⟩ := bind_ok (hstill (by simpa using hkept))
        obtain rfl := Filling.text.inj (Except.ok.inj hv)
        exact .ofExcept_bind heval .pure
  | .choice reads choose branches, kept, s, .choice b tree, hs, hfits, hstill, hrests => by
      unfold hole
      refine .ofExcept_bind (branchOf_settled hs hstill.1) ?_
      cases b with
      | none =>
          cases tree with
          | none => exact .pure
          | some t => exact absurd hfits (by simp [Hole.shape, HoleShape.Fits])
      | some i =>
          cases tree with
          | none => exact absurd hfits (by simp [Hole.shape, HoleShape.Fits])
          | some t =>
              have hbefore : treeOfBranch (some i) (branchBefore
                  (if kept then some (.choice (some i) (some t)) else none)) =
                  if kept then some t else none := by
                cases kept with
                | false => rfl
                | true => exact if_pos rfl
              dsimp only
              rw [hbefore]
              exact (calm_branch hborn hdry branches kept s i t hs hfits
                (hstill.2 i t rfl rfl) hrests).bind_pure
                (fun tree => Filling.choice (some i) (some tree))
  | .loop reads items binding body, kept, s, .loop shape entries, hs, hfits, hstill, hrests => by
      obtain ⟨rfl, hentries⟩ := hfits
      unfold hole
      rw [keptEntries_settled hs]
      by_cases hkept : (kept && host.keeps reads && host.keeps body.reads) = true
      · -- entries are kept only where nothing in them can change
        have hread : (Hole.loop (.paths []) items binding body).reads ≠ .anything := by
          refine Reads.join_ne_anything.mpr ⟨by simp, ?_⟩
          rw [Bool.and_eq_true] at hkept
          exact of_decide_eq_true (Bool.and_eq_true_iff.mp hkept.2).2
        have hfits : (Hole.loop (.paths []) items binding body).shape.Fits
            (.loop body.shape entries) := ⟨rfl, hentries⟩
        obtain ⟨hhandles, -⟩ := inert_fitsHole _ hread _ hfits
        rw [if_pos hkept, (Hole.loop (.paths []) items binding body).still_fits _ hread hfits,
          hhandles]
        dsimp only
        rw [forM_followTree hhandles]
        exact .pure
      · obtain ⟨values, hvalues, hentry⟩ := hstill (by simpa using hkept)
        rw [if_neg hkept]
        refine .ofExcept_bind hvalues ?_
        refine Calm.bind_pure (a := stillTrees entries) (.mapM ?_) (Filling.loop body.shape)
        rw [List.forall₂_iff_zip] at hentry ⊢
        refine ⟨hentry.1, fun {v t} hin => ?_⟩
        obtain ⟨hshape, hfit⟩ := hentries t (List.of_mem_zip hin).2
        have hbody := calm_holes hborn hdry body false (s.bind binding v) t.fillings hs hfit
          (hentry.2 hin) (hrests values hvalues (v, t) hin)
        obtain ⟨shape, fs⟩ := t
        obtain rfl : shape = body.shape := hshape
        exact hbody.bind_pure (Tree.mk body.shape)
  | .stream name binding body, kept, s, .stream shape edits entries, hs, hfits, hstill, _ => by
      unfold hole
      obtain rfl : shape = body.shape := hfits.1
      exact (calm_takeFlush name (hdry name hstill)).bind .pure
  | .component kind id props, kept, s, f, _, _, _, hrests => by
      obtain ⟨i, fields, h, changed, hid, hprops, rfl, hrests⟩ := hrests
      unfold hole
      exact calm_component hborn hid hprops hrests

theorem calm_branch (hborn : r₀.stillborn = [])
    (hdry : ∀ name, dry name → p₀.flushes.get? name = none) {chosen count : Nat} :
    ∀ (bs : Branches) (kept : Bool) (s : Scope) (n : Nat) (t : Tree), s.assigns.before = [] →
    Shape.FitsAt bs.shapes n t → bs.StillAt host dry kept s n t →
    bs.RestsAt (Rests host.kinds r₀) s n t →
    Calm r₀ p₀ (branch host none s (if kept then some t else none) chosen count bs n) (still t)
      (still t).handles
  | .more t _, kept, s, 0, .mk shape fs, hs, hfits, hstill, hrests => by
      obtain ⟨rfl, hfits⟩ : shape = t.shape ∧ t.shape.Fits fs := hfits
      unfold branch
      refine .ofExcept_bind (a := if kept then fs else []) ?_ ?_
      · cases kept with
        | false => rfl
        | true => exact keptFillings_of_fits hfits
      · exact (calm_holes hborn hdry t kept s fs hs hfits hstill hrests).bind_pure
          (Tree.mk t.shape)
  | .more _ rest, kept, s, n + 1, t, hs, hfits, hstill, hrests => by
      unfold branch
      exact calm_branch hborn hdry rest kept s n t hs hfits hstill hrests

end

/-- **A still tree that refers to components at rest stays as it is.** -/
theorem calm_template (hborn : r₀.stillborn = [])
    (hdry : ∀ name, dry name → p₀.flushes.get? name = none) (hs : s.assigns.before = [])
    {t : Template} {tree : Tree} (hshape : tree.shape = t.shape) (hfits : tree.Fits)
    (hstill : t.StillAt host dry true s tree.fillings)
    (hrests : t.RestsAt (Rests host.kinds r₀) s tree.fillings) :
    Calm r₀ p₀ (template host s t (some tree)) tree.still tree.still.handles := by
  obtain ⟨shape, fs⟩ := tree
  obtain rfl : shape = t.shape := hshape
  refine .ofExcept_bind (keptFillings_of_fits hfits) ?_
  exact (calm_holes hborn hdry t true s fs hs hfits hstill hrests).bind_pure (Tree.mk t.shape)

end Roster

end ViewSync
