import ViewSync.Proofs.Run
import ViewSync.Proofs.Roster.Resting
import ViewSync.Proofs.Roster.Rollback

/-!
# A failed render leaves the view as it was

Between passes the roster is at rest. A pass that is opened on such a roster leaves a trace up to
the point where it fails, and undoing it gives the same roster again; nothing else of the view is
written before the pass is known to have gone well.
-/

namespace ViewSync

namespace Roster

/-- Rendering the queue ends with the former trees kept, of a roster that is traced. -/
theorem renderQueue_traced {r₀ : Roster} {host : Host} {fuel : Nat} {p p' : Pass}
    {result : Except Error (Keyed Handle Patch)} (hp : Traced.Whole r₀ none p.roster [])
    (hq : renderQueue host fuel p = some (result, p')) :
    ∃ r u former, Traced r₀ r u former ∧ p'.roster = r.keepTrees former := by
  unfold renderQueue at hq
  have hoffers : p.Offers fun _ => True := fun _ _ _ _ _ => trivial
  split at hq
  · cases hq
  · next e former p₁ hd =>
      simp only [Option.some.injEq, Prod.mk.injEq] at hq
      obtain ⟨-, rfl⟩ := hq
      obtain ⟨⟨cur, u, ht, -⟩, -⟩ := (Traced.steady r₀ host).drain hoffers hp hd
      exact ⟨p₁.roster, u, former, ht, rfl⟩
  · next former p₁ hd =>
      simp only [Option.some.injEq, Prod.mk.injEq] at hq
      obtain ⟨-, rfl⟩ := hq
      obtain ⟨⟨cur, u, ht, -⟩, -⟩ := (Traced.steady r₀ host).drain hoffers hp hd
      obtain ⟨u', ht'⟩ := ht.dropStillborn
      have hnoted : ∀ e ∈ former, former.get? e.1 ≠ none := by
        intro e he
        have hhas := Keyed.has_of_mem_keys (List.mem_map_of_mem (f := Prod.fst) he)
        exact Option.isSome_iff_ne_none.mp hhas
      exact ⟨_, u', former, ht'.patches hnoted, rfl⟩

/-- A pass that has not rendered anything of the queue yet has no former trees to keep. -/
theorem keepTrees_nil {r : Roster} {u : Undo} (hu : r.undo = some u) : r.keepTrees [] = r := by
  have hsame : r.undo.map (fun u => { u with trees := u.trees }) = r.undo := by
    rw [hu]
    rfl
  change { r with undo := r.undo.map fun u => { u with trees := u.trees } } = r
  rw [hsame]

end Roster

namespace View

open Roster

/-- Whatever a pass comes to, it leaves a trace of the roster that it was opened on. -/
theorem renderAll_traced {v : View} {fuel : Nat} {p : Pass}
    {result : Except Error Rendering} (hv : v.roster.Resting)
    (hr : v.renderAll fuel v.opened = some (result, p)) :
    ∃ r u former, Traced v.roster r u former ∧ p.roster = r.keepTrees former := by
  have hstart : Traced.Whole v.roster none v.roster.openPass [] :=
    ⟨freshUndo v.roster, hv.openPass, rfl, fun _ h => by cases h⟩
  have hroot := Pass.yields_template ((Traced.steady v.roster v.host).closed none [])
    (s := Scope.ofAssigns v.assigns) (t := v.root) (Scope.all_true _)
    (Template.makes_true _) v.sent v.opened
    ⟨fun _ _ _ _ _ => trivial, hstart⟩
  rcases renderAll_cases hr with ⟨e, hrun⟩ | ⟨root, p₁, queued, hrun, hqueue⟩
  · rw [hrun] at hroot
    obtain ⟨⟨-, u, ht, -⟩, -⟩ := hroot
    -- the root failed, and nothing of the queue has been rendered
    exact ⟨p.roster, u, [], ht, (keepTrees_nil ht.undo).symm⟩
  · rw [hrun] at hroot
    obtain ⟨⟨-, hwhole⟩, -⟩ := hroot
    exact renderQueue_traced hwhole hqueue

/-- A failing pass is undone altogether. -/
theorem render_error {v v' : View} {fuel : Nat} {e : Error} (hv : v.roster.Resting)
    (hr : v.render fuel = some (.error e, v')) : v' = v := by
  rcases render_cases hr with ⟨e', p, hall, -, rfl⟩ | ⟨done, p, -, hresult, -⟩
  · obtain ⟨r, u, former, ht, hp⟩ := renderAll_traced hv hall
    rw [hp, ht.undoPass_keepTrees hv]
  · cases hresult

/-- The roster is an arena after a pass, however it went. -/
theorem arena_renderAll {v : View} {fuel : Nat} {p : Pass}
    {result : Except Error Rendering} (hv : v.roster.Resting)
    (hr : v.renderAll fuel v.opened = some (result, p)) :
    p.roster.Arena := by
  obtain ⟨r, u, former, ht, hp⟩ := renderAll_traced hv hr
  rw [hp]
  exact ht.arena.congr rfl rfl rfl rfl rfl

/-- A pass that goes well ends with a roster at rest. -/
theorem resting_render {v v' : View} {fuel : Nat} {outcome : Outcome} (hv : v.roster.Resting)
    (hr : v.render fuel = some (.ok outcome, v')) : v'.roster.Resting := by
  obtain ⟨done, p, hall, -, rfl⟩ := render_ok hr
  exact ((arena_renderAll hv hall).closePass _).reclaim_tell

/-- The roster is at rest after each command. -/
theorem resting_exec {v v' : View} {cmd : Command} {answer : Answer} (hv : v.roster.Resting)
    (hx : v.exec cmd = some (answer, v')) : v'.roster.Resting := by
  cases effect_of_exec hx with
  | write w => exact hv
  | mount id kind props unsent => exact hv.refer v.host.kinds id kind props none
  | unmount id unsent => exact hv.unmount id
  | deliver id props unsent => exact hv.deliver v.host.kinds id props
  | keyStream name keyOf => exact hv
  | changeStream unsent hc => exact hv
  | refuse hc => exact hv
  | notify e => exact hv
  | @render fuel result _ hr =>
      cases result with
      | error e =>
          rw [render_error hv hr]
          exact hv
      | ok outcome => exact resting_render hv hr
  | close => exact hv.unmountEach.reclaim_tell

theorem resting_reachable {host : Host} {root : Template} {v : View}
    (hv : Reachable host root v) : v.roster.Resting :=
  hv.invariant (P := fun v => v.roster.Resting) (resting_ofConfig host.config)
    fun _ _ _ _ => resting_exec

/-- **A failed render leaves the view exactly as it was.** -/
theorem eq_of_render_error {host : Host} {root : Template} {v v' : View} {fuel : Nat} {e : Error}
    (hv : Reachable host root v) (hr : v.render fuel = some (.error e, v')) : v' = v :=
  render_error (resting_reachable hv) hr

/-- A page with a component, and behind it a title that has to be assigned. -/
def titledPage : Template :=
  .hole "" (.component ⟨"menu", "menu"⟩ (fun _ => .ok "menu") fun _ => .ok [])
    (.hole "" (.value (Reads.ofTexts ["title"]) fun s => s.get "title") (.text ""))

/-- A view of such a page, with one more component mounted and no title. -/
def untitled : View :=
  ((ofTemplate ⟨fun _ => Kind.ofTemplate (.text "menu"), {}⟩ titledPage).mount "aside"
    ⟨"aside", "aside"⟩ []).2

/-- The component that the page refers to is taken back when the title is found missing. -/
theorem untitled_eq_of_render_error :
    ∃ v', untitled.render 2 = some (.error (.unset "title"), v') ∧ v' = untitled := by
  have hmount : (ofTemplate untitled.host titledPage).exec (.mount "aside" ⟨"aside", "aside"⟩ []) =
      some (.component (.ok 0), untitled) := rfl
  have hreach : Reachable untitled.host titledPage untitled := .step .start hmount
  have hrun : untitled.render 2 = some (.error (.unset "title"), _) := rfl
  exact ⟨_, hrun, eq_of_render_error hreach hrun⟩

end View

end ViewSync
