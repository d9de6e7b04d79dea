import ViewSync.Proofs.Roster.Moves
import ViewSync.Proofs.Roster.Resting
import ViewSync.Proofs.Roster.Rollback

/-!
# Calls

What a host may call on a roster, in any order, and what holds of every roster that calls lead to.
No order is asked for: components may be referred to when no pass is open, a pass that is open may
be opened again or undone at any point, and the queue may be rendered as often as one likes.
-/

namespace ViewSync.Roster

variable {kinds : Kinds} {r r' : Roster} {m m' : Moment} {h : Handle} {c : Component}

/-! ## In good order -/

/-- What is true of a roster in any state: records carry their handles, and tables are sorted. -/
structure Proper (m : Moment) : Prop where
  /-- A record knows its handle. -/
  handle_eq : ∀ h c, m.roster.get? h = some c → c.handle = h
  /-- So does the record that is away. -/
  away_eq : ∀ h c, m.away = some (h, c) → c.handle = h
  /-- The ids are in order. -/
  ids_sorted : m.roster.ids.Sorted
  /-- The handles to spare are in order. -/
  spare_sorted : KeySet.Sorted m.roster.spare
  /-- So are those that an undo would give back. -/
  undo_spare : ∀ u, m.roster.undo = some u → KeySet.Sorted u.spare

theorem get?_put_cases {k : Handle} {d : Component} (hd : (r.put h c).get? k = some d) :
    (k = h ∧ d = c) ∨ r.get? k = some d := by
  by_cases hlt : h < r.slots.length
  · rw [get?_put hlt] at hd
    split at hd
    · next hk => exact .inl ⟨hk, (Option.some.inj hd).symm⟩
    · exact .inr hd
  · -- there is no such slot
    have hsame : r.put h c = r := by
      unfold put
      rw [List.set_eq_of_length_le (Nat.le_of_not_lt hlt)]
    exact .inr (hsame ▸ hd)

theorem get?_create_cases {id : String} {kind : KindRef} {assigns : Assigns}
    {owner : Option StreamEntry} {k : Handle} {d : Component}
    (hd : (r.create id kind assigns owner).get? k = some d) :
    (k = r.takeHandle.1 ∧ d = { id, handle := r.takeHandle.1, kind, assigns, owner }) ∨
      r.get? k = some d :=
  (get?_put_cases (r := r.takeHandle.2) hd).imp_right fun hd => get?_takeHandle_snd r k ▸ hd

namespace Proper

/-- The undo record may change in all but what was to spare. -/
theorem recordUndo (hp : Proper m) {f : Undo → Undo} (hf : ∀ u, (f u).spare = u.spare) :
    Proper { m with roster := m.roster.recordUndo f } where
  handle_eq := hp.handle_eq
  away_eq := hp.away_eq
  ids_sorted := hp.ids_sorted
  spare_sorted := hp.spare_sorted
  undo_spare u hu := by
    obtain ⟨u', hu', rfl⟩ := Option.map_eq_some_iff.mp hu
    rw [hf]
    exact hp.undo_spare u' hu'

theorem put {former : FormerTrees} (hp : Proper m) (hh : c.handle = h) :
    Proper ⟨none, m.roster.put h c, former⟩ where
  handle_eq k d hd := by
    rcases get?_put_cases hd with ⟨rfl, rfl⟩ | hd
    · exact hh
    · exact hp.handle_eq k d hd
  away_eq _ _ haway := by cases haway
  ids_sorted := hp.ids_sorted
  spare_sorted := hp.spare_sorted
  undo_spare := hp.undo_spare

theorem vacate (hp : Proper m) (h : Handle) : Proper { m with roster := m.roster.vacate h } where
  handle_eq k d hd := by
    have hd : (m.roster.vacate h).get? k = some d := hd
    rw [get?_vacate] at hd
    split at hd
    · cases hd
    · exact hp.handle_eq k d hd
  away_eq := hp.away_eq
  ids_sorted := hp.ids_sorted
  spare_sorted := hp.spare_sorted
  undo_spare := hp.undo_spare

/-- **Every move leaves a roster in good order.** -/
theorem move (hp : Proper m) (hm : Move kinds m m') : Proper m' := by
  cases hm with
  | marks => exact ⟨hp.handle_eq, hp.away_eq, hp.ids_sorted, hp.spare_sorted, hp.undo_spare⟩
  | @handOver m h c props owner hc =>
      have hput : Proper ⟨none, m.roster.handOver kinds h c props owner, m.former⟩ :=
        (hp.recordUndo (f := fun u => { u with
          states := u.states.insertNew c.handle (c.assigns, c.owner) }) fun _ => rfl).put
          (hp.handle_eq h c hc)
      exact ⟨hput.handle_eq, hp.away_eq, hput.ids_sorted, hput.spare_sorted, hput.undo_spare⟩
  | @create m id kind assigns owner hid =>
      refine ⟨fun k d hd => ?_, hp.away_eq, ?_, ?_, fun u hu => ?_⟩
      · rcases get?_create_cases hd with ⟨rfl, rfl⟩ | hd
        · rfl
        · exact hp.handle_eq k d hd
      · rw [create_rest]
        exact Keyed.sorted_insert hp.ids_sorted _ _
      · rw [create_rest]
        exact hp.spare_sorted.sublist (List.tail_sublist _)
      · rw [create_rest] at hu
        obtain ⟨u', hu', rfl⟩ := Option.map_eq_some_iff.mp hu
        exact hp.undo_spare u' hu'
  | @lift r former h c hc =>
      have hvacate := (hp.recordUndo (f := fun u => { u with
        states := u.states.insertNew c.handle (c.assigns, c.owner) }) fun _ => rfl).vacate h
      refine ⟨hvacate.handle_eq, ?_, hvacate.ids_sorted, hvacate.spare_sorted, hvacate.undo_spare⟩
      rintro k d ⟨⟩
      exact hp.handle_eq h c hc
  | @putBack r former h c => exact hp.put (hp.away_eq h c rfl)
  | @redraw r former h c t =>
      have hh : c.handle = h := hp.away_eq h c rfl
      exact hp.put hh
  | @drop r former h c hc =>
      rw [drop_of_get? hc]
      have hdrop := (hp.vacate h).recordUndo (f := fun u => { u with
        dropped := u.dropped ++ [c] }) fun _ => rfl
      exact ⟨hdrop.handle_eq, hdrop.away_eq, Keyed.sorted_erase hdrop.ids_sorted _,
        KeySet.sorted_insert hdrop.spare_sorted h, hdrop.undo_spare⟩
  | @blank r former h c t hc _ =>
      have hh : c.handle = h := hp.handle_eq h c hc
      exact hp.put hh
  | @file r former =>
      have hfile := hp.recordUndo (f := fun u => { u with
        trees := former.foldl (fun trees e => trees.insertNew e.1 e.2) u.trees }) fun _ => rfl
      exact ⟨hfile.handle_eq, hfile.away_eq, hfile.ids_sorted, hfile.spare_sorted,
        hfile.undo_spare⟩

theorem moves (hp : Proper m) (hm : Moves kinds m m') : Proper m' := by
  induction hm with
  | refl => exact hp
  | tail _ hm ih => exact ih.move hm

end Proper

/-! ## Calls -/

/-- What a pass may call while it is open. -/
inductive InPass (kinds : Kinds) (r : Roster) : Roster → Prop where
  | refer (id : String) (kind : KindRef) (props : Fields) (owner : Option StreamEntry) :
      InPass kinds r (r.refer kinds id kind props owner).2
  | follow (h : Handle) : InPass kinds r (r.follow h)
  | followTree (t : Tree) : InPass kinds r (r.followTree t)
  | renderQueue {config : Config} {fuel : Nat} {flushes : Keyed String Stream.Flush}
      {errors : List Error} {result : Except Error (Keyed Handle Patch)} {p : Pass} :
      Roster.renderQueue ⟨kinds, config⟩ fuel ⟨r, flushes, errors⟩ = some (result, p) →
      InPass kinds r p.roster

/-- What may be called at any time. -/
inductive Call (kinds : Kinds) (r : Roster) : Roster → Prop where
  | inPass {r' : Roster} : InPass kinds r r' → Call kinds r r'
  | openPass : Call kinds r r.openPass
  | closePass (holds : StreamEntry → Bool) : Call kinds r (r.closePass holds).2
  | undoPass : Call kinds r r.undoPass
  | tell : Call kinds r r.tell.2
  | reclaim : Call kinds r r.reclaim
  | deliver (id : String) (props : Fields) : Call kinds r (r.deliver kinds id props).2
  | unmount (id : String) : Call kinds r (r.unmount id).2
  | unmountEach : Call kinds r r.unmountEach.2

/-- The rosters that calls lead to. -/
def Reached (kinds : Kinds) (r : Roster) : Prop :=
  ∃ config, Relation.ReflTransGen (Call kinds) (ofConfig config) r

/-- **What a pass calls is made of moves.** -/
theorem InPass.moves (hc : InPass kinds r r') : Moves kinds { roster := r } { roster := r' } := by
  cases hc with
  | refer id kind props owner => exact moves_refer .refl id kind props owner
  | follow h => exact moves_followAll .refl [h]
  | followTree t => exact moves_followAll .refl t.handles
  | renderQueue hq => exact moves_renderQueue .refl hq

theorem moves_of_inPass (hc : Relation.ReflTransGen (InPass kinds) r r') :
    Moves kinds { roster := r } { roster := r' } := by
  induction hc with
  | refl => exact .refl
  | tail _ hc ih => exact ih.trans hc.moves

/-! ## Every call leaves a roster in good order -/

namespace Proper

/-- Marks do not matter, nor does what is retired. -/
theorem congr (hp : Proper { roster := r }) (hslots : r'.slots = r.slots) (hids : r'.ids = r.ids)
    (hspare : r'.spare = r.spare) (hundo : r'.undo = r.undo) : Proper { roster := r' } where
  handle_eq k d hd := by
    have hget : r'.get? k = r.get? k := by rw [get?, get?, hslots]
    exact hp.handle_eq k d (hget ▸ hd)
  away_eq _ _ haway := by cases haway
  ids_sorted := hids ▸ hp.ids_sorted
  spare_sorted := hspare ▸ hp.spare_sorted
  undo_spare u hu := hp.undo_spare u (hundo ▸ hu)

theorem withIds (hp : Proper { roster := r }) {ids : Keyed String Handle} (hids : ids.Sorted) :
    Proper { roster := { r with ids } } :=
  ⟨hp.handle_eq, hp.away_eq, hids, hp.spare_sorted, hp.undo_spare⟩

theorem retire (hp : Proper { roster := r }) (id : String) :
    Proper { roster := (r.retire id).2 } := by
  unfold Roster.retire
  split
  · exact hp
  · next h _ =>
      have hids := Keyed.sorted_erase hp.ids_sorted id
      dsimp only
      split
      · next c hc =>
          have hput : Proper { roster := r.put h { c with retired := true } } :=
            hp.put (hp.handle_eq h c hc)
          exact (hput.withIds hids).congr rfl rfl rfl rfl
      · exact (hp.withIds hids).congr rfl rfl rfl rfl

theorem retireAll (hp : Proper { roster := r }) (ids : List String) :
    Proper { roster := r.retireAll ids } :=
  List.foldlRecOn (motive := fun r => Proper { roster := r }) _ _ hp fun _ hp id _ => hp.retire id

theorem foldl {α : Type} {f : Roster → α → Roster} (hp : Proper { roster := r })
    (hf : ∀ r a, Proper { roster := r } → Proper { roster := f r a }) (as : List α) :
    Proper { roster := as.foldl f r } :=
  List.foldlRecOn (motive := fun r => Proper { roster := r }) _ _ hp fun r hp a _ => hf r a hp

theorem revive (hp : Proper { roster := r }) (born : List Handle) (c : Component) :
    Proper { roster := revive born r c } := by
  unfold Roster.revive
  split
  · exact hp
  · have hput : Proper { roster := r.put c.handle c } := hp.put rfl
    exact hput.withIds (Keyed.sorted_insert hp.ids_sorted _ _)

theorem takeBack (hp : Proper { roster := r }) (h : Handle) :
    Proper { roster := r.takeBack h } := by
  unfold Roster.takeBack
  split
  · exact (hp.vacate h).withIds (Keyed.sorted_erase hp.ids_sorted _)
  · exact hp

theorem amend (hp : Proper { roster := r }) (h : Handle) {f : Component → Component}
    (hf : ∀ c, (f c).handle = c.handle) : Proper { roster := r.amend h f } := by
  unfold Roster.amend
  split
  · next c hc => exact hp.put ((hf c).trans (hp.handle_eq h c hc))
  · exact hp

theorem undoPass (hp : Proper { roster := r }) : Proper { roster := r.undoPass } := by
  cases hu : r.undo with
  | none =>
      have hsame : r.undoPass = r := by
        unfold Roster.undoPass
        rw [hu]
      rw [hsame]
      exact hp
  | some u =>
      rw [Traced.undoPass_eq hu]
      have hspare := hp.undo_spare u hu
      have hp := hp.foldl (fun _ c hp => hp.revive u.born c) u.dropped
      have hp := hp.foldl (fun _ h hp => hp.takeBack h) u.born
      have hp := hp.foldl (fun _ e hp => hp.amend e.1 (f := withState e.2) fun _ => rfl) u.states
      have hp := hp.foldl (fun _ e hp => hp.amend e.1 (f := withTree e.2) fun _ => rfl) u.trees
      refine ⟨fun k c hc => hp.handle_eq k c ?_, fun _ _ haway => (by cases haway), hp.ids_sorted,
        hspare, fun _ hu => (by cases hu)⟩
      -- slots may be cut off, but do not change
      refine (?_ : Option.join _ = some c)
      have hc : Option.join (List.take u.size _)[k]? = some c := hc
      rw [List.getElem?_take] at hc
      split at hc
      · exact hc
      · cases hc

/-- **Every call leaves a roster in good order.** -/
theorem call (hp : Proper { roster := r }) (hc : Call kinds r r') : Proper { roster := r' } := by
  cases hc with
  | inPass hc => exact hp.moves hc.moves
  | openPass =>
      refine ⟨hp.handle_eq, hp.away_eq, hp.ids_sorted, hp.spare_sorted, ?_⟩
      rintro u ⟨⟩
      exact hp.spare_sorted
  | closePass holds =>
      have hseen : Proper { roster := r.followAll ((r.ownedRecords holds).2.map
        Component.handle) } := hp.congr rfl rfl rfl rfl
      obtain ⟨hget, -, hids, hspare, -⟩ := hseen.retireAll _
      exact ⟨hget, fun _ _ haway => (by cases haway), hids, hspare, fun _ hu => (by cases hu)⟩
  | undoPass => exact hp.undoPass
  | tell =>
      have hgone := hp.foldl (fun _ h hp => hp.vacate h) (inOrder r.retired)
      exact hgone.congr rfl rfl rfl rfl
  | reclaim =>
      exact ⟨hp.handle_eq, hp.away_eq, hp.ids_sorted, KeySet.sorted_insertAll hp.spare_sorted _,
        hp.undo_spare⟩
  | deliver id props =>
      unfold Roster.deliver
      split
      · exact hp
      · next h _ =>
          split
          · exact hp
          · next c hc =>
              have hput : Proper { roster := r.put h { c with
                assigns := ((kinds c.kind.key).update props c.assigns).1 } } :=
                hp.put (hp.handle_eq h c hc)
              dsimp only
              split
              · exact hput
              · split
                · obtain ⟨queue, hq, -⟩ := schedule_eq (r.put h { c with
                    assigns := ((kinds c.kind.key).update props c.assigns).1 }) h
                  rw [hq]
                  exact hput.congr rfl rfl rfl rfl
                · exact hput
  | unmount id =>
      rw [unmount_snd]
      exact hp.retire id
  | unmountEach => exact hp.retireAll _

end Proper

theorem proper_reached (hr : Reached kinds r) : Proper { roster := r } := by
  obtain ⟨config, hr⟩ := hr
  induction hr with
  | refl =>
      exact ⟨fun h c hc => (by cases hc), fun _ _ haway => (by cases haway), List.Pairwise.nil,
        List.Pairwise.nil, fun u hu => (by cases hu)⟩
  | tail _ hc ih => exact ih.call hc

end ViewSync.Roster
