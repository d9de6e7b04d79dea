import Mathlib.Logic.Relation
import ViewSync.Proofs.Roster.Draining

/-!
# The moves of a pass

All that a pass does to a roster is made of a few moves: marks are set, a component is handed props
or made, a record is taken out of its slot to be rendered and put back with a new tree or without, a
record is dropped, a tree is blanked, and the trees from before are filed with the undo record. What
holds at the start and is kept by each move holds to the end, in any state of the roster, however
its records and ids go together.
-/

namespace ViewSync.Roster

/-- A moment of a pass: the record that is out of its slot, if there is one, the roster, and the
trees from before that are not filed yet. -/
structure Moment where
  /-- The record that is out of its slot, with its handle. -/
  away : Option (Handle × Component) := none
  /-- The roster without it. -/
  roster : Roster
  /-- The trees from before of the components that were rendered since. -/
  former : FormerTrees := []

/-- One move. -/
inductive Move (kinds : Kinds) : Moment → Moment → Prop where
  | marks {m : Moment} (seen : KeySet Handle) (drawn : List StreamEntry)
      (stillborn : KeySet Handle) (queue : List Handle) :
      Move kinds m { m with roster := { m.roster with seen, drawn, stillborn, queue } }
  | handOver {m : Moment} {h : Handle} {c : Component} (props : Fields)
      (owner : Option StreamEntry) : m.roster.get? h = some c →
      Move kinds m { m with roster := m.roster.handOver kinds h c props owner }
  | create {m : Moment} {id : String} (kind : KindRef) (assigns : Assigns)
      (owner : Option StreamEntry) : m.roster.handle? id = none →
      Move kinds m { m with roster := m.roster.create id kind assigns owner }
  | lift {r : Roster} {former : FormerTrees} {h : Handle} {c : Component} : r.get? h = some c →
      Move kinds ⟨none, r, former⟩ ⟨some (h, c), (r.keepState c).vacate h, former⟩
  | putBack {r : Roster} {former : FormerTrees} {h : Handle} {c : Component} :
      Move kinds ⟨some (h, c), r, former⟩ ⟨none, r.put h c, former⟩
  | redraw {r : Roster} {former : FormerTrees} {h : Handle} {c : Component} (t : Tree) :
      Move kinds ⟨some (h, c), r, former⟩
        ⟨none, r.put h { c with tree := some t, assigns := c.assigns.settled },
          former.insertNew h c.tree⟩
  | drop {r : Roster} {former : FormerTrees} {h : Handle} {c : Component} : r.get? h = some c →
      Move kinds ⟨none, r, former⟩ ⟨none, r.drop h, former⟩
  | blank {r : Roster} {former : FormerTrees} {h : Handle} {c : Component} (t : Tree) :
      r.get? h = some c → former.get? h ≠ none →
      Move kinds ⟨none, r, former⟩ ⟨none, r.put h { c with tree := some t }, former⟩
  | file {r : Roster} {former : FormerTrees} :
      Move kinds ⟨none, r, former⟩ ⟨none, r.keepTrees former, []⟩

/-- Any number of moves. -/
abbrev Moves (kinds : Kinds) : Moment → Moment → Prop := Relation.ReflTransGen (Move kinds)

section Moves

variable {kinds : Kinds} {m₀ : Moment} {away : Option (Handle × Component)} {r : Roster}
variable {former : FormerTrees}

/-! ## References -/

theorem moves_schedule (hm : Moves kinds m₀ ⟨away, r, former⟩) (h : Handle) :
    Moves kinds m₀ ⟨away, (r.see h).schedule h, former⟩ := by
  obtain ⟨queue, hq, -⟩ := schedule_eq (r.see h) h
  rw [hq]
  exact hm.tail (.marks _ r.drawn r.stillborn queue)

theorem moves_refer (hm : Moves kinds m₀ ⟨away, r, former⟩) (id : String) (kind : KindRef)
    (props : Fields) (owner : Option StreamEntry) :
    Moves kinds m₀ ⟨away, (r.refer kinds id kind props owner).2, former⟩ := by
  have hspec := refer_spec kinds r id kind props owner
  generalize (r.refer kinds id kind props owner).1 = x at hspec
  generalize (r.refer kinds id kind props owner).2 = r' at hspec ⊢
  cases hspec with
  | refused e => exact hm
  | stillborn => exact hm
  | inside => exact hm.tail (.marks _ r.drawn r.stillborn r.queue)
  | failed _ _ hc _ => exact hm.tail (.handOver props owner hc)
  | @stale h c _ _ hc _ => exact moves_schedule (hm.tail (.handOver props owner hc)) h
  | @unchanged h c _ _ hc _ =>
      exact (hm.tail (.handOver props owner hc)).tail (.marks _ r.drawn r.stillborn r.queue)
  | @created a b hid _ _ =>
      exact moves_schedule (hm.tail (.create kind b owner hid)) r.takeHandle.1

theorem moves_followAll (hm : Moves kinds m₀ ⟨away, r, former⟩) (hs : List Handle) :
    Moves kinds m₀ ⟨away, r.followAll hs, former⟩ :=
  hm.tail (.marks _ r.drawn r.stillborn r.queue)

/-- All that a hole does is made of moves. -/
theorem closed_moves (kinds : Kinds) (m₀ : Moment) (away : Option (Handle × Component))
    (former : FormerTrees) :
    Pass.Closed kinds (fun _ => True) fun p => Moves kinds m₀ ⟨away, p.roster, former⟩ where
  refer _ id kind props owner hm _ := moves_refer hm id kind props owner
  follow _ t hm := moves_followAll hm t.handles
  draw p e hm := by
    unfold noteDrawn
    split
    · exact hm
    · exact hm.tail (.marks p.roster.seen _ p.roster.stillborn p.roster.queue)
  take _ _ hm := hm
  note _ _ hm := hm
  items _ _ _ _ _ _ _ := trivial
  keys _ := trivial

/-! ## Rendering the queue -/

theorem moves_settle {p : Pass} {h : Handle} {c : Component}
    (hm : Moves kinds m₀ ⟨some (h, c), p.roster, former⟩) (result : Except Error Tree) :
    Moves kinds m₀ ⟨none, (settle p h c former result).2.2.roster,
      (settle p h c former result).2.1⟩ := by
  cases result with
  | ok t => exact hm.tail (.redraw t)
  | error e =>
      unfold Roster.settle
      dsimp only
      split
      · exact hm.tail .putBack
      · split
        · exact (hm.tail (.marks p.roster.seen p.roster.drawn _ p.roster.queue)).tail .putBack
        · exact hm.tail .putBack

theorem moves_renderOne {host : Host} {p : Pass} (hm : Moves host.kinds m₀ ⟨none, p.roster, former⟩)
    (h : Handle) :
    Moves host.kinds m₀ ⟨none, (renderOne host p h former).2.2.roster,
      (renderOne host p h former).2.1⟩ := by
  unfold Roster.renderOne
  cases hc : p.roster.get? h with
  | none => exact hm
  | some c =>
      dsimp only
      split
      · exact hm
      · have hyields := Pass.yields_template
          (closed_moves host.kinds m₀ (some (h, c)) former) (s := Scope.ofAssigns c.assigns)
          (t := (host.kinds c.kind.key).render c.assigns) (Scope.all_true _)
          (Template.makes_true _) c.tree { p with roster := (p.roster.keepState c).vacate h }
          (hm.tail (.lift hc))
        exact moves_settle hyields.1 _

theorem moves_drain {host : Host} {fuel : Nat} {p p' : Pass} {former' : FormerTrees}
    {result : Except Error Unit} (hm : Moves host.kinds m₀ ⟨none, p.roster, former⟩)
    (hd : drain host fuel p former = some (result, former', p')) :
    Moves host.kinds m₀ ⟨none, p'.roster, former'⟩ := by
  refine (drain_keeps (P := fun _ p former => Moves host.kinds m₀ ⟨none, p.roster, former⟩)
    (fun {p p' former former' h queue result} hm _ hone => ?_) hm hd).1
  have hnext := moves_renderOne (p := { p with roster := { p.roster with queue } })
    (hm.tail (.marks p.roster.seen p.roster.drawn p.roster.stillborn queue)) h
  rwa [hone] at hnext

theorem moves_dropStillborn (hm : Moves kinds m₀ ⟨none, r, former⟩) :
    Moves kinds m₀ ⟨none, r.dropStillborn, former⟩ := by
  refine List.foldlRecOn (motive := fun r => Moves kinds m₀ ⟨none, r, former⟩) _ _ hm
    fun r hm h _ => ?_
  cases hc : r.get? h with
  | none =>
      unfold Roster.drop
      rw [hc]
      exact hm
  | some c => exact hm.tail (.drop hc)

theorem moves_patches {rest : FormerTrees} (hm : Moves kinds m₀ ⟨none, r, former⟩)
    (hrest : ∀ e ∈ rest, former.get? e.1 ≠ none) :
    Moves kinds m₀ ⟨none, (r.patches rest).2, former⟩ := by
  induction rest generalizing r with
  | nil => exact hm
  | cons e rest ih =>
      obtain ⟨hnoted, hrest⟩ := List.forall_mem_cons.mp hrest
      unfold Roster.patches
      split
      · next c hc =>
          split
          · exact ih hm hrest
          · next t _ =>
              have hput := hm.tail (.blank (r.blankStillborn t) hc hnoted)
              dsimp only
              split
              · exact hput
              · exact ih hput hrest
      · exact ih hm hrest

/-- **Rendering the queue is made of moves**, however it goes. -/
theorem moves_renderQueue {host : Host} {fuel : Nat} {p p' : Pass}
    {result : Except Error (Keyed Handle Patch)}
    (hm : Moves host.kinds m₀ ⟨none, p.roster, []⟩)
    (hq : renderQueue host fuel p = some (result, p')) :
    Moves host.kinds m₀ ⟨none, p'.roster, []⟩ := by
  unfold Roster.renderQueue at hq
  split at hq
  · cases hq
  · next e former p₁ hd =>
      obtain ⟨-, rfl⟩ := Prod.mk.inj (Option.some.inj hq)
      exact (moves_drain hm hd).tail .file
  · next former p₁ hd =>
      obtain ⟨-, rfl⟩ := Prod.mk.inj (Option.some.inj hq)
      refine (moves_patches (moves_dropStillborn (moves_drain hm hd)) fun e he => ?_).tail .file
      have hhas := Keyed.has_of_mem_keys (List.mem_map_of_mem (f := Prod.fst) he)
      exact Option.isSome_iff_ne_none.mp hhas

end Moves

end ViewSync.Roster
