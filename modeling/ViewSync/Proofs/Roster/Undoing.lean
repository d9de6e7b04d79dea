import ViewSync.Proofs.Roster.Allotment
import ViewSync.Proofs.Roster.Journal

/-!
# When undoing brings everything back

A pass that is open may refer to components, follow trees, and render what is queued, in any order
and as often as it likes; all of these are moves, and leave an account. Undoing gives the roster
that the pass was opened on, from any state that calls lead to, as long as no component from before
lost its handle or its id to one that was made in the pass. Where one did, it is not brought back:
undoing skips a dropped record whose handle was given out again, and takes the id of a new component
out of the table though an old one has it again.
-/

namespace ViewSync.Roster

/-! ## The rounds of undoing, one record at a time -/

section Rounds

variable {r : Roster} {born : List Handle} {cs : List Component}

/-- The last record of a handle that comes back is the one that is found there. -/
theorem get?_revive_all (hlt : ∀ c ∈ cs, c.handle ∉ born → c.handle < r.slots.length)
    (k : Handle) :
    (cs.foldl (revive born) r).get? k =
      (cs.reverse.find? fun c => c.handle = k ∧ k ∉ born).or (r.get? k) := by
  induction cs generalizing r with
  | nil => rfl
  | cons c cs ih =>
      obtain ⟨hc, hcs⟩ := List.forall_mem_cons.mp hlt
      rw [List.foldl_cons, ih (length_revive born r c ▸ hcs), List.reverse_cons,
        List.find?_append, Option.or_assoc]
      congr 1
      unfold revive
      by_cases hborn : c.handle ∈ born
      · rw [if_pos hborn, List.find?_singleton, if_neg]
        · rfl
        · simp only [decide_eq_true_eq]
          rintro ⟨rfl, hout⟩
          exact hout hborn
      · rw [if_neg hborn, List.find?_singleton]
        refine (get?_put (hc hborn) c k).trans ?_
        by_cases hk : k = c.handle
        · subst hk
          simp [hborn]
        · simp [hk, Ne.symm hk]

/-- A record does not come back to a handle that was given out. -/
theorem get?_revive_all_of_born {h : Handle} (hh : h ∈ born) :
    (cs.foldl (revive born) r).get? h = r.get? h := by
  refine List.foldlRecOn (motive := fun r' : Roster => r'.get? h = r.get? h) _ _ rfl
    fun r' hr' c _ => ?_
  unfold revive
  split
  · exact hr'
  · next hout =>
      have hne : c.handle ≠ h := fun heq => hout (heq ▸ hh)
      refine Eq.trans (congrArg Option.join ?_) hr'
      exact List.getElem?_set_ne hne

theorem handle?_revive_all (id : String) :
    (cs.foldl (revive born) r).handle? id =
      ((cs.reverse.find? fun c => c.id = id ∧ c.handle ∉ born).map Component.handle).or
        (r.handle? id) := by
  induction cs generalizing r with
  | nil => rfl
  | cons c cs ih =>
      rw [List.foldl_cons, ih, List.reverse_cons, List.find?_append, Option.map_or, Option.or_assoc]
      congr 1
      unfold revive
      rw [List.find?_singleton]
      by_cases hborn : c.handle ∈ born
      · simp [hborn]
      · rw [if_neg hborn]
        refine (Keyed.get?_insert r.ids c.id id c.handle).trans ?_
        by_cases hid : id = c.id
        · simp [hid, hborn]
        · simp [hid, Ne.symm hid, handle?]

theorem handle?_takeBack (r : Roster) (h : Handle) (id : String) :
    (r.takeBack h).handle? id =
      if ∃ c, r.get? h = some c ∧ c.id = id then none else r.handle? id := by
  unfold takeBack
  cases hc : r.get? h with
  | none => simp
  | some c =>
      refine (Keyed.get?_erase r.ids c.id id).trans ?_
      by_cases hid : id = c.id
      · simp [hid]
      · simp [hid, Ne.symm hid, handle?]

open Classical in
theorem handle?_takeBack_all (id : String) :
    (born.foldl takeBack r).handle? id =
      if ∃ h ∈ born, ∃ c, r.get? h = some c ∧ c.id = id then none else r.handle? id := by
  induction born generalizing r with
  | nil => simp
  | cons h born ih =>
      rw [List.foldl_cons, ih, handle?_takeBack]
      have hiff : (∃ k ∈ h :: born, ∃ c, r.get? k = some c ∧ c.id = id) ↔
          (∃ k ∈ born, ∃ c, (r.takeBack h).get? k = some c ∧ c.id = id) ∨
            ∃ c, r.get? h = some c ∧ c.id = id := by
        constructor
        · rintro ⟨k, hk, c, hc, hid⟩
          by_cases hkh : k = h
          · exact .inr ⟨c, hkh ▸ hc, hid⟩
          · refine .inl ⟨k, (List.mem_cons.mp hk).resolve_left hkh, c, ?_, hid⟩
            rw [get?_takeBack, if_neg hkh, hc]
        · rintro (⟨k, hk, c, hc, hid⟩ | ⟨c, hc, hid⟩)
          · rw [get?_takeBack] at hc
            split at hc
            · cases hc
            · exact ⟨k, List.mem_cons_of_mem _ hk, c, hc, hid⟩
          · exact ⟨h, List.mem_cons_self, c, hc, hid⟩
      by_cases hlater : ∃ k ∈ born, ∃ c, (r.takeBack h).get? k = some c ∧ c.id = id
      · rw [if_pos hlater, if_pos (hiff.mpr (.inl hlater))]
      · rw [if_neg hlater]
        by_cases hnow : ∃ c, r.get? h = some c ∧ c.id = id
        · rw [if_pos hnow, if_pos (hiff.mpr (.inr hnow))]
        · rw [if_neg hnow, if_neg fun hany => (hiff.mp hany).elim hlater hnow]

end Rounds

/-! ## What does not come back -/

section Undone

variable {kinds : Kinds} {r₀ r : Roster} {u : Undo} {h : Handle} {c : Component}

/-- A handle that was given out in the pass has no record afterwards. -/
theorem get?_undoPass_of_born (hu : r.undo = some u) (hstates : u.states.Sorted)
    (htrees : u.trees.Sorted) (hh : h ∈ u.born) : r.undoPass.get? h = none := by
  rw [(undoPass_spec hu hstates htrees).1, recovered, get?_takeBack_all, if_pos hh]
  exact ite_self none

/-- The id of a component made in the pass names no component afterwards. -/
theorem handle?_undoPass_of_born (hu : r.undo = some u) (hstates : u.states.Sorted)
    (htrees : u.trees.Sorted) (hh : h ∈ u.born) (hc : r.get? h = some c) :
    r.undoPass.handle? c.id = none := by
  classical
  have hids : r.undoPass.handle? c.id = (r.recovered u).handle? c.id := by
    rw [(undoPass_spec hu hstates htrees).2.2]
    rfl
  rw [hids, recovered, handle?_takeBack_all]
  exact if_pos ⟨h, hh, c, (get?_revive_all_of_born hh).trans hc, rfl⟩

/-! ## Everything comes back -/

/-- Records that were dropped since the pass was opened. -/
def dropped (r : Roster) : List Component := r.undo.elim [] Undo.dropped

/-- No component from before the pass lost its handle or its id to one that was made in it. -/
structure Unreplaced (r₀ r : Roster) : Prop where
  /-- A new component did not get the handle of an old one. -/
  handle : ∀ h ∈ r.born, r₀.get? h = none
  /-- Nor did it get the id of an old one. -/
  id : ∀ h ∈ r.born, ∀ c, r.get? h = some c → r₀.handle? c.id = none
  /-- A handle to spare had a slot. One without belongs to a component that was retired in a pass
  since undone. -/
  room : ∀ h ∈ r.born, h ∈ r₀.spare → h < r₀.slots.length
  /-- A record that was dropped had been listed under its id. -/
  listed : ∀ c ∈ r.dropped, c.handle ∉ r.born → r₀.handle? c.id = some c.handle

section Unreplaced

variable (ho : Opened r₀ { roster := r } u) (ha : Accounts r₀ { roster := r } u)
variable (hun : Unreplaced r₀ r)
include ho ha hun

/-- Every record is brought back. -/
theorem get?_recovered (k : Handle) :
    ((r.recovered u).get? k).map (rewind u u.trees k) = r₀.get? k := by
  have hborn : r.born = u.born := by rw [Roster.born, ho.undo]; rfl
  have hlt (d : Component) (hd : d ∈ u.dropped) (hout : d.handle ∉ u.born) :
      d.handle < r.slots.length := (ha.dropped d hd hout).1
  rw [recovered, get?_takeBack_all]
  split
  · next hk => exact (hun.handle k (hborn ▸ hk)).symm
  · next hk =>
      rw [get?_revive_all hlt]
      cases hfind : u.dropped.reverse.find? fun c => c.handle = k ∧ k ∉ u.born with
      | some d =>
          have hd := List.mem_reverse.mp (List.mem_of_find?_eq_some hfind)
          obtain ⟨rfl, hout⟩ : d.handle = k ∧ k ∉ u.born := by simpa using List.find?_some hfind
          exact (ha.dropped d hd hout).2.2.symm
      | none =>
          rw [Option.none_or]
          cases hc : r.get? k with
          | some c => exact (ha.kept k hk c hc).symm
          | none =>
              rcases ha.lost k hk hc with hnone | ⟨d, hd, hdk⟩
              · exact hnone.symm
              · have hskip := List.find?_eq_none.mp hfind d (List.mem_reverse.mpr hd)
                exact absurd (decide_eq_true ⟨hdk, hk⟩) hskip

/-- So is every id. -/
theorem handle?_recovered (id : String) : (r.recovered u).handle? id = r₀.handle? id := by
  classical
  have hborn : r.born = u.born := by rw [Roster.born, ho.undo]; rfl
  have hdropped : r.dropped = u.dropped := by rw [Roster.dropped, ho.undo]; rfl
  rw [recovered, handle?_takeBack_all]
  split
  · next hnew =>
      obtain ⟨h, hh, c, hc, rfl⟩ := hnew
      rw [get?_revive_all_of_born hh] at hc
      exact (hun.id h (hborn ▸ hh) c hc).symm
  · next hnew =>
      rw [handle?_revive_all]
      cases hfind : u.dropped.reverse.find? fun c => c.id = id ∧ c.handle ∉ u.born with
      | some d =>
          have hd := List.mem_reverse.mp (List.mem_of_find?_eq_some hfind)
          obtain ⟨rfl, hout⟩ : d.id = id ∧ d.handle ∉ u.born := by
            simpa using List.find?_some hfind
          exact (hun.listed d (hdropped ▸ hd) (hborn ▸ hout)).symm
      | none =>
          rw [Option.map_none, Option.none_or]
          cases hid : r.handle? id with
          | some h =>
              rcases ha.listed id h hid with hwas | ⟨hh, c, hc, hcid⟩
              · exact hwas.symm
              · exact absurd ⟨h, hh, c, (get?_revive_all_of_born hh).trans hc, hcid⟩ hnew
          | none =>
              cases hwas : r₀.handle? id with
              | none => rfl
              | some h =>
                  rcases ha.unlisted id h hwas with hnow | ⟨d, hd, hdid, hold⟩
                  · rw [← hid]
                    exact hnow
                  · have hout : d.handle ∉ u.born := fun hh =>
                      hold (hun.handle d.handle (hborn ▸ hh))
                    have hskip := List.find?_eq_none.mp hfind d (List.mem_reverse.mpr hd)
                    exact absurd (decide_eq_true ⟨hdid, hout⟩) hskip

/-- **Undoing brings everything back**, as long as nothing was replaced. -/
theorem undoPass_of_unreplaced (hp₀ : Proper { roster := r₀ }) (hp : Proper { roster := r })
    (hundo : r₀.undo = none) (hstillborn : r₀.stillborn = []) :
    r.undoPass = { r₀ with drawn := [] } := by
  have hids : (r.recovered u).ids = r₀.ids := by
    have hback := (hp.foldl (fun _ c hp => hp.revive u.born c) u.dropped).foldl
      (fun _ h hp => hp.takeBack h) u.born
    exact Keyed.eq_of_get?_eq hback.ids_sorted hp₀.ids_sorted (handle?_recovered ho ha hun)
  obtain ⟨hretired, htold, hcapacity⟩ := ho.rest
  rw [undoPass_eq_of_recovered ho.undo ho.states_sorted ho.trees_sorted ho.size ho.grown
    (get?_recovered ho ha hun) hids, ho.spare, ho.queue, ho.seen]
  simp only [Roster.mk.injEq, true_and]
  exact ⟨hretired, htold, hstillborn.symm, hundo.symm, hcapacity⟩

end Unreplaced

end Undone

/-! ## Every state that calls lead to -/

section Reached

variable {kinds : Kinds} {r₀ r : Roster}

/-- **What undoing a pass gives**, on any roster that calls lead to, with no pass open and no
failure left over, after any calls of a pass. The roster is what it was when the pass was opened, if
no component from before lost its handle or its id to one that was made in the pass. A handle that
was given out in the pass has no record afterwards, and the id of a component made in it names none,
whatever they stood for before. -/
theorem undoPass_reached (hr : Reached kinds r₀) (hundo : r₀.undo = none)
    (hstillborn : r₀.stillborn = [])
    (hcalls : Relation.ReflTransGen (InPass kinds) r₀.openPass r) :
    (Unreplaced r₀ r → r.undoPass = { r₀ with drawn := [] }) ∧
    (∀ h ∈ r.born, r.undoPass.get? h = none) ∧
    (∀ h ∈ r.born, ∀ c, r.get? h = some c → r.undoPass.handle? c.id = none) := by
  have hp₀ := proper_reached hr
  have hopen : Proper { roster := r₀.openPass } :=
    hp₀.call (.openPass : Call kinds r₀ r₀.openPass)
  have hmoves := moves_of_inPass hcalls
  obtain ⟨u, ho, ha⟩ := (journaled_openPass r₀).moves hopen hmoves
  have hborn : r.born = u.born := by rw [Roster.born, ho.undo]; rfl
  rw [hborn]
  refine ⟨fun hun => ?_, fun h hh => ?_, fun h hh c hc => ?_⟩
  · have haccounts := ha fun h hh => ⟨hun.handle h (hborn ▸ hh), hun.room h (hborn ▸ hh)⟩
    exact undoPass_of_unreplaced ho haccounts hun hp₀ (hopen.moves hmoves) hundo hstillborn
  · exact get?_undoPass_of_born ho.undo ho.states_sorted ho.trees_sorted hh
  · exact handle?_undoPass_of_born ho.undo ho.states_sorted ho.trees_sorted hh hc

end Reached

/-- A kind that cannot be rendered, and kinds that can. -/
def brittleKinds : Kinds := fun key =>
  Kind.ofTemplate (if key = "bad" then
    .hole "<x>" (.value (.paths [⟨"missing", []⟩]) fun s => s.get "missing") (.text "")
    else .text "<b>good</b>")

/-- A component that waits for its first render, which will fail. -/
def waiting : Roster := ((ofConfig {}).refer brittleKinds "x" ⟨"bad", "bad"⟩ [] none).2

theorem reached_waiting : Reached brittleKinds waiting :=
  ⟨{}, .single (.inPass (.refer "x" ⟨"bad", "bad"⟩ [] none))⟩

/-- Another component is made, the first is dropped, and the pass undone: all is as it was. -/
theorem waiting_restored : ∃ r, Reached brittleKinds waiting ∧ waiting.undo = none ∧
    waiting.stillborn = [] ∧ Relation.ReflTransGen (InPass brittleKinds) waiting.openPass r ∧
    Unreplaced waiting r ∧ r.born = [1] ∧ r.dropped.map Component.id = ["x"] ∧
    r.undoPass = waiting := by
  obtain ⟨result, p, hq, hborn, hdropped, hnew⟩ : ∃ result p,
      Roster.renderQueue ⟨brittleKinds, {}⟩ 3
        ⟨(waiting.openPass.refer brittleKinds "y" ⟨"good", "good"⟩ [] none).2, [], []⟩ =
        some (result, p) ∧ p.roster.born = [1] ∧
      p.roster.dropped.map (fun c => (c.id, c.handle)) = [("x", 0)] ∧
      (p.roster.get? 1).map Component.id = some "y" := ⟨_, _, rfl, rfl, rfl, rfl⟩
  have hun : Unreplaced waiting p.roster := by
    refine ⟨fun h hh => ?_, fun h hh c hc => ?_, fun h hh hspare => (by cases hspare),
      fun c hc _ => ?_⟩
    · obtain rfl := List.mem_singleton.mp (hborn ▸ hh)
      rfl
    · obtain rfl := List.mem_singleton.mp (hborn ▸ hh)
      rw [hc] at hnew
      rw [Option.some.inj hnew]
      rfl
    · have hin := List.mem_map_of_mem (f := fun c => (c.id, c.handle)) hc
      rw [hdropped] at hin
      obtain ⟨hid, hh⟩ := Prod.mk.inj (List.mem_singleton.mp hin)
      rw [hid, hh]
      rfl
  have hcalls : Relation.ReflTransGen (InPass brittleKinds) waiting.openPass p.roster :=
    .tail (.single (.refer "y" ⟨"good", "good"⟩ [] none)) (.renderQueue hq)
  refine ⟨p.roster, reached_waiting, rfl, rfl, hcalls, hun, hborn, ?_, ?_⟩
  · have hids := congrArg (List.map Prod.fst) hdropped
    rwa [List.map_map] at hids
  · exact (undoPass_reached reached_waiting rfl rfl hcalls).1 hun

/-- The other component is made after the first was dropped, and has its handle: undoing takes it
back, and brings nothing back. -/
theorem waiting_lost : ∃ r, Reached brittleKinds waiting ∧ waiting.undo = none ∧
    waiting.stillborn = [] ∧ Relation.ReflTransGen (InPass brittleKinds) waiting.openPass r ∧
    waiting.handle? "x" = some 0 ∧ r.undoPass.handle? "x" = none ∧ r.undoPass.get? 0 = none := by
  have hq : Roster.renderQueue ⟨brittleKinds, {}⟩ 3 ⟨waiting.openPass, [], []⟩ = some (_, _) := rfl
  exact ⟨_, reached_waiting, rfl, rfl,
    .tail (.single (.renderQueue hq)) (.refer "y" ⟨"good", "good"⟩ [] none), rfl, rfl, rfl⟩

end ViewSync.Roster
