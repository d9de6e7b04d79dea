import ViewSync.Proofs.Pass.Rendering

/-!
# Rendering outside of streams

Where a template has no stream hole, nothing in it is rendered inside a stream entry: references to
components are made without an owner, no flush is taken, and no entry is drawn. An invariant that is
kept by the few things which are left to do is kept by rendering.
-/

namespace ViewSync.Pass

/-- A property of passes that everything keeps which a hole does outside of streams. -/
structure Outside (kinds : Kinds) (P : Pass → Prop) : Prop where
  /-- A reference outside of entries keeps it. -/
  refer : ∀ p id kind props, P p →
    P { p with roster := (p.roster.refer kinds id kind props none).2 }
  /-- Following a tree keeps it. -/
  follow : ∀ p t, P p → P { p with roster := p.roster.followTree t }
  /-- Noting a failure keeps it. -/
  note : ∀ p e, P p → P { p with errors := p.errors ++ [e] }

variable {host : Host} {P : Pass → Prop}

theorem outside_refer (hP : Outside host.kinds P) (s : Scope) (kind : KindRef)
    (id : Callback String) (props : Callback Fields) :
    Yields P (refer host none s kind id props) fun _ => True := by
  refine .ofExcept_bind fun i _ => .ofExcept_bind fun fields _ => ?_
  refine .bind (.modifyGet (Q := fun _ => True) fun p hp => ⟨?_, trivial⟩) fun r _ => ?_
  · exact hP.refer p i kind fields hp
  · exact .ofExcept fun _ _ => trivial

theorem outside_component (hP : Outside host.kinds P) (s : Scope) (kind : KindRef)
    (id : Callback String) (props : Callback Fields) :
    Yields P (component host none s kind id props) fun _ => True := by
  refine .tryCatch (.bind (outside_refer hP s kind id props) fun r _ => .pure trivial) fun e => ?_
  split
  · exact .bind (Q := fun _ => False) (.throw e) fun _ h => h.elim
  · exact .bind (.modify fun p hp => hP.note p e hp) fun _ _ => .pure trivial

mutual

theorem outside_holes (hP : Outside host.kinds P) (s : Scope) :
    ∀ (t : Template) (before : List Filling), t.shape.StreamFree →
      Yields P (holes host none s t before) fun _ => True
  | .text _, before, _ => by
      unfold holes
      exact .pure trivial
  | .hole _ h rest, before, hfree => by
      obtain ⟨hhole, hrest⟩ : h.shape.StreamFree ∧ rest.shape.StreamFree := by
        simpa [Template.shape, Shape.StreamFree] using hfree
      unfold holes
      refine .bind (outside_hole hP s h before.head? hhole) fun f _ => ?_
      exact .bind (outside_holes hP s rest before.tail hrest) fun fs _ => .pure trivial

theorem outside_hole (hP : Outside host.kinds P) (s : Scope) :
    ∀ (h : Hole) (before : Option Filling), h.shape.StreamFree →
      Yields P (hole host none s h before) fun _ => True
  | .value reads eval, before, _ => by
      unfold hole
      split
      · exact .pure trivial
      · exact .ofExcept_bind fun v _ => .pure trivial
  | .choice reads choose branches, before, hfree => by
      unfold hole
      refine .ofExcept_bind fun b _ => ?_
      split
      · exact .pure trivial
      · next i _ => exact .bind (outside_branch hP s branches i hfree) fun t _ => .pure trivial
  | .loop reads items binding body, before, hfree => by
      unfold hole
      split
      · next entries _ =>
          refine .bind (.forM entries fun t _ => .modify fun p hp => hP.follow p t hp) fun _ _ => ?_
          exact .pure trivial
      · refine .ofExcept_bind fun values _ => ?_
        refine .bind (.mapM (Q := fun _ => True) values fun v _ => ?_) fun _ _ => .pure trivial
        exact .bind (outside_holes hP (s.bind binding v) body [] hfree) fun _ _ => .pure trivial
  | .stream .., _, hfree => hfree.elim
  | .component kind id props, before, _ => by
      unfold hole
      exact outside_component hP s kind id props

theorem outside_branch (hP : Outside host.kinds P) (s : Scope) {before : Option Tree}
    {chosen count : Nat} :
    ∀ (branches : Branches) (n : Nat), Shape.AllStreamFree branches.shapes →
      Yields P (branch host none s before chosen count branches n) fun _ => True
  | .none, n, _ => by
      unfold branch
      exact .throw _
  | .more t rest, 0, hfree => by
      unfold branch
      refine .ofExcept_bind fun kept _ => ?_
      exact .bind (outside_holes hP s t kept hfree.1) fun fs _ => .pure trivial
  | .more t rest, n + 1, hfree => by
      unfold branch
      exact outside_branch hP s rest n hfree.2

end

/-- **Rendering a template without streams keeps what is kept outside of streams.** -/
theorem outside_template (hP : Outside host.kinds P) (s : Scope) {t : Template}
    (hfree : t.shape.StreamFree) (before : Option Tree) :
    Yields P (template host s t before) fun _ => True := by
  refine .ofExcept_bind fun kept _ => ?_
  exact .bind (outside_holes hP s t kept hfree) fun fs _ => .pure trivial

end ViewSync.Pass
