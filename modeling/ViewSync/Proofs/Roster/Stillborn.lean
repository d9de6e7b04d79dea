import ViewSync.Proofs.Roster.Patches
import ViewSync.Proofs.Roster.Turns

/-!
# Components that come to nothing

What is stillborn when the queue is drained are those components whose first rendering failed, no
more and no less, whoever asked for them. Each of them still has its record at that point. Once they
are dropped, their ids are nobody's and their handles are to spare.
-/

namespace ViewSync.Roster

open ViewSync.Pass

variable {host : Host} {p p₀ q : Pass} {h : Handle} {c : Component} {ds : List Drawing}
variable {former : FormerTrees} {fuel : Nat}

/-- The turn of a component comes that has no tree yet, and rendering it fails. -/
def FirstFails (host : Host) (p₀ : Pass) (h : Handle) (c : Component) : Prop :=
  c.tree = none ∧ ∃ ds p former e, Turn host p₀ ds p former h c (.error e)

/-! ## Becoming stillborn -/

/-- Rendering a template makes nothing stillborn. -/
theorem closed_stillborn (kinds : Kinds) (stillborn : KeySet Handle) :
    Pass.Closed kinds (fun _ => True) fun p => p.roster.stillborn = stillborn where
  refer _ id kind props owner hp _ := (stillborn_refer id kind props owner).trans hp
  follow _ _ hp := hp
  draw p e hp := (noteDrawn_rest p.roster e).2.1.trans hp
  take _ _ hp := hp
  note _ _ hp := hp
  items _ _ _ _ _ _ _ := trivial
  keys _ := trivial

theorem stillborn_outcomeOf (host : Host) (p : Pass) (h : Handle) (c : Component) :
    (outcomeOf host p h c).2.roster.stillborn = p.roster.stillborn :=
  (Pass.yields_template (closed_stillborn host.kinds p.roster.stillborn) (Scope.all_true _)
    (Template.makes_true _) c.tree
    { p with roster := (p.roster.keepState c).vacate h } rfl).1

/-- A component whose first rendering fails is stillborn from then on. -/
theorem FirstFails.mem_stillborn {p' : Pass} {former' : FormerTrees}
    (hf : FirstFails host p₀ h c) (hd : drain host fuel p₀ [] = some (.ok (), former', p')) :
    h ∈ p'.roster.stillborn := by
  obtain ⟨htree, ds, p, former, e, hturn⟩ := hf
  obtain ⟨rest, q, taken, hok, hrest, -⟩ := hturn.rest hd
  obtain ⟨t, ht⟩ | ⟨e', he, hfatal⟩ := settle_ok_cases hok
  · cases ht
  obtain rfl := Except.error.inj he
  rw [settle_error hfatal] at hrest
  refine (carried_stillborn host h).drain [] ?_ hrest
  obtain ⟨stillborn, heq, hiff⟩ := putBack_of_fail q.roster h c
  change h ∈ ((if c.tree.isNone then { q.roster with stillborn := q.roster.stillborn.insert h }
    else q.roster).put h c).stillborn
  rw [heq]
  exact (hiff h).mpr (.inr ⟨rfl, htree⟩)

/-- Its record is there until it is dropped. -/
theorem Turn.record_drained {result : Except Error Tree} {p' : Pass} {former' : FormerTrees}
    (ht : Turn host p₀ ds p former h c result) (harena : p.roster.Arena)
    (hd : drain host fuel p₀ [] = some (.ok (), former', p')) :
    ∃ c', p'.roster.get? h = some c' ∧ c'.id = c.id ∧ c'.retired = false := by
  obtain ⟨rest, hrest, -⟩ := ht.drains.rest hd
  have htaken : Taken h c.id ⟨none, p.roster, former⟩ :=
    ⟨harena.not_spare ht.record, lt_of_get? ht.record, c, ht.record, rfl, ht.live⟩
  exact ((carried_taken host h c.id).drain ds htaken hrest).record

/-- **Nothing else is stillborn.** -/
theorem Drains.firstFails (hd : Drains host p₀ ds p former) (hstart : h ∉ p₀.roster.stillborn)
    (hin : h ∈ p.roster.stillborn) : ∃ c, FirstFails host p₀ h c := by
  induction hd with
  | start => exact absurd hin hstart
  | @step ds p p' former former' k queue hd hq hone ih =>
      rcases retired_or_live p.roster k with hret | ⟨c, hc, hlive⟩
      · have hskip := (renderOne_of_retired host former
          (p := { p with roster := { p.roster with queue } }) hret).1
        rw [hone] at hskip
        obtain ⟨-, rfl⟩ := Prod.mk.inj (Prod.mk.inj hskip).2
        exact ih hin
      · have hsettle := (renderOne_of_live host former
          (p := { p with roster := { p.roster with queue } }) hc hlive).1
        have hsame := stillborn_outcomeOf host { p with roster := { p.roster with queue } } k c
        have hpass : p' = _ := congrArg (fun x => x.2.2) (hone.symm.trans hsettle)
        obtain ⟨-, slots, stillborn, hroster, hnew⟩ := settle_rest
          (outcomeOf host { p with roster := { p.roster with queue } } k c).2 k c former
          (outcomeOf host { p with roster := { p.roster with queue } } k c).1
        rw [hpass, hroster] at hin
        rcases hnew h hin with hold | ⟨rfl, htree, hfailed⟩
        · exact ih (hsame ▸ hold)
        · -- this is the turn that made it so
          cases hresult : (outcomeOf host { p with roster := { p.roster with queue } } h c).1 with
          | ok t =>
              rw [hresult] at hfailed
              cases hfailed
          | error e =>
              refine ⟨c, htree, ds, p, former, e, hd, by rw [hq, List.head?_cons], hc, hlive, ?_⟩
              rw [hq, List.tail_cons]
              exact hresult

/-- **When the queue is drained, those components are stillborn whose first rendering failed.** -/
theorem mem_stillborn_iff (hstart : p₀.roster.stillborn = [])
    (hd : drain host fuel p₀ [] = some (.ok (), former, p)) :
    h ∈ p.roster.stillborn ↔ ∃ c, FirstFails host p₀ h c := by
  constructor
  · exact (drains_drain .start hd).1.firstFails (hstart ▸ List.not_mem_nil)
  · intro ⟨c, hf⟩
    exact hf.mem_stillborn hd

/-! ## Being dropped -/

/-- What is to spare stays so when others are dropped. -/
theorem mem_spare_drop {r : Roster} (hh : h ∈ r.spare) (k : Handle) : h ∈ (r.drop k).spare := by
  cases hk : r.get? k with
  | none =>
      unfold drop
      rw [hk]
      exact hh
  | some d =>
      rw [drop_of_get? hk]
      exact KeySet.mem_insert.mpr (.inr hh)

/-- **The handle of a component that is dropped is to spare.** -/
theorem mem_spare_drop_all {hs : List Handle} {r : Roster} (hin : h ∈ hs) (hc : r.get? h = some c) :
    h ∈ (hs.foldl drop r).spare := by
  induction hs generalizing r with
  | nil => cases hin
  | cons k hs ih =>
      rw [List.foldl_cons]
      by_cases hk : h = k
      · subst hk
        have hhead : h ∈ (r.drop h).spare := by
          rw [drop_of_get? hc]
          exact KeySet.mem_insert.mpr (.inl rfl)
        exact List.foldlRecOn (motive := fun r : Roster => h ∈ r.spare) hs drop hhead
          fun _ hr k _ => mem_spare_drop hr k
      · refine ih ((List.mem_cons.mp hin).resolve_left hk) ?_
        rw [(drop_rest r k).2.2, if_neg hk]
        exact hc

end ViewSync.Roster
