import ViewSync.Proofs.Roster.Patches
import ViewSync.Proofs.Roster.Drawings

/-!
# Durable properties

A property of rosters is durable when it is about records and ids alone, and stays when records are
put into slots or taken out of them and ids leave the table. All that happens to a roster keeps such
a property, apart from references to components, which are the only way for a new id to get into the
table and for a record to get another owner. What references do has to be shown of each property by
itself.
-/

namespace ViewSync.Roster

/-- A property of rosters that is kept as long as there are no references, where `Q` is what is true
of each record. -/
structure Durable (P : Roster → Prop) (Q : Component → Prop) : Prop where
  /-- The property is of records, ids and the capacity. -/
  congr : ∀ {r r' : Roster}, P r → r'.slots = r.slots → r'.ids = r.ids →
    r'.capacity = r.capacity → P r'
  /-- It tells something of each record. -/
  record : ∀ {r : Roster} {h : Handle} {c : Component}, P r → r.get? h = some c → Q c
  /-- A record may change if its owner does not. -/
  rewrite : ∀ {c c' : Component}, Q c → c'.owner = c.owner → Q c'
  /-- Such a record may be put anywhere. -/
  put : ∀ {r : Roster} {c : Component} (h : Handle), P r → Q c → P (r.put h c)
  /-- A slot may be emptied. -/
  vacate : ∀ {r : Roster} (h : Handle), P r → P (r.vacate h)
  /-- An id may be given up. -/
  unlist : ∀ {r : Roster} (id : String), P r → P { r with ids := r.ids.erase id }

/-- Rendering components keeps a property of rosters. -/
def Renders (host : Host) (P : Roster → Prop) : Prop :=
  ∀ key a s before, Pass.Yields (fun p => P p.roster)
    (Pass.template host s ((host.kinds key).render a) before) fun _ => True

namespace Durable

variable {P : Roster → Prop} {Q : Component → Prop} {r : Roster} {host : Host}
variable {former : FormerTrees}
variable (hP : Durable P Q)
include hP

/-! ## Between passes -/

theorem retire (hr : P r) (id : String) : P (r.retire id).2 := by
  unfold Roster.retire
  cases r.handle? id with
  | none => exact hr
  | some h =>
      dsimp only
      cases hc : r.get? h with
      | none => exact hP.congr (hP.unlist id hr) rfl rfl rfl
      | some c =>
          have hput : P (r.put h { c with retired := true }) :=
            hP.put h hr (hP.rewrite (hP.record hr hc) rfl)
          exact hP.congr (hP.unlist id hput) rfl rfl rfl

theorem retireAll (hr : P r) (ids : List String) : P (r.retireAll ids) :=
  List.foldlRecOn ids _ hr fun _ hr id _ => hP.retire hr id

theorem closePass (hr : P r) (holds : StreamEntry → Bool) : P (r.closePass holds).2 := by
  have hfollow : P (r.followAll ((r.ownedRecords holds).2.map Component.handle)) :=
    hP.congr hr rfl rfl rfl
  exact hP.congr (hP.retireAll hfollow _) rfl rfl rfl

theorem reclaim_tell (hr : P r) : P r.tell.2.reclaim := by
  have hvacate : P ((inOrder r.retired).foldl Roster.vacate r) :=
    List.foldlRecOn _ _ hr fun _ hr h _ => hP.vacate h hr
  exact hP.congr hvacate rfl rfl rfl

theorem deliver (hr : P r) (kinds : Kinds) (id : String) (props : Fields) :
    P (r.deliver kinds id props).2 := by
  unfold Roster.deliver
  cases r.handle? id with
  | none => exact hr
  | some h =>
      dsimp only
      cases hc : r.get? h with
      | none => exact hr
      | some c =>
          have hput : P (r.put h
              { c with assigns := ((kinds c.kind.key).update props c.assigns).1 }) :=
            hP.put h hr (hP.rewrite (hP.record hr hc) rfl)
          dsimp only
          split
          · exact hput
          · split
            · obtain ⟨queue, hq, -⟩ := schedule_eq (r.put h
                { c with assigns := ((kinds c.kind.key).update props c.assigns).1 }) h
              rw [hq]
              exact hP.congr hput rfl rfl rfl
            · exact hput

/-! ## Passes -/

theorem settle {p : Pass} {c : Component} (hp : P p.roster) (hc : Q c) (h : Handle)
    (result : Except Error Tree) : P (settle p h c former result).2.2.roster := by
  cases result with
  | ok t => exact hP.put h hp (hP.rewrite hc rfl)
  | error e =>
      unfold Roster.settle
      dsimp only
      split
      · exact hP.put h hp hc
      · refine hP.put h ?_ hc
        split
        · exact hP.congr hp rfl rfl rfl
        · exact hp

theorem renderOne (hrender : Renders host P) {p : Pass} (hp : P p.roster) (h : Handle)
    (former : FormerTrees) :
    P (renderOne host p h former).2.2.roster := by
  rcases retired_or_live p.roster h with hret | ⟨c, hc, hlive⟩
  · rw [(renderOne_of_retired host former hret).1]
    exact hp
  · rw [(renderOne_of_live host former hc hlive).1]
    have hbegun : P ((p.roster.keepState c).vacate h) := hP.vacate h (hP.congr hp rfl rfl rfl)
    have hq := hrender c.kind.key c.assigns (Scope.ofAssigns c.assigns) c.tree
      { p with roster := (p.roster.keepState c).vacate h } hbegun
    exact hP.settle hq.1 (hP.record hp hc) h _

/-- **Draining the queue keeps what is durable.** -/
theorem drains (hrender : Renders host P) {p₀ p : Pass} {ds : List Drawing} (hp₀ : P p₀.roster)
    (hd : Drains host p₀ ds p former) : P p.roster := by
  induction hd with
  | start => exact hp₀
  | @step ds p p' former former' h queue _ _ hone ih =>
      have hnext := hP.renderOne hrender (p := { p with roster := { p.roster with queue } })
        (hP.congr ih rfl rfl rfl) h former
      rw [hone] at hnext
      exact hnext

theorem dropStillborn (hr : P r) : P r.dropStillborn := by
  refine List.foldlRecOn _ _ hr fun r hr h _ => ?_
  cases hc : r.get? h with
  | none =>
      unfold Roster.drop
      rw [hc]
      exact hr
  | some c =>
      rw [drop_of_get? hc]
      exact hP.congr (hP.unlist c.id (hP.vacate h hr)) rfl rfl rfl

theorem patches (hr : P r) (former : FormerTrees) : P (r.patches former).2 := by
  induction former generalizing r with
  | nil => exact hr
  | cons e former ih =>
      unfold Roster.patches
      split
      · next c hc =>
          split
          · exact ih hr
          · next t _ =>
              have hput : P (r.put e.1 { c with tree := some (r.blankStillborn t) }) :=
                hP.put e.1 hr (hP.rewrite (hP.record hr hc) rfl)
              dsimp only
              split
              · exact hput
              · exact ih hput
      · exact ih hr

/-- **Rendering the queue keeps what is durable**, if it goes well. -/
theorem renderQueue (hrender : Renders host P) {fuel : Nat} {p p' : Pass}
    {ps : Keyed Handle Patch} (hp : P p.roster)
    (hq : renderQueue host fuel p = some (.ok ps, p')) : P p'.roster := by
  obtain ⟨former, p₁, r, hd, hpatches, rfl⟩ := renderQueue_ok hq
  have hdrained := hP.drains hrender hp (drains_drain .start hd).1
  have hcompared := hP.patches (hP.dropStillborn hdrained) former
  rw [hpatches] at hcompared
  exact hP.congr hcompared rfl rfl rfl

end Durable

end ViewSync.Roster
