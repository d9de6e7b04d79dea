import ViewSync.Proofs.View.Scratch

/-!
# Rendering again is rendering from scratch

A view that is written to and rendered, over and over, shows what a new view would show that is
given the same assigns and rendered once: what was kept, skipped, merged and given out again on the
way leaves no trace in the page. The components have to be made of their props alone, no two slots
may point at one component, and nothing may go wrong inside of one; renders that fail altogether do
no harm.
-/

namespace ViewSync.View

open Roster

variable {host : Host} {root : Template} {l : Library} {v v' : View} {fuel : Nat}
variable {last : Option (Keyed String Value)} {values : Keyed String Value}

/-! ## Writing and rendering -/

/-- No two slots point at one component. The slots in trees that a pass has kept count as much as
those that it has filled: a component is referred to by either. -/
def Single (v : View) : Prop := ∀ tree, v.sent = some tree → (pointed tree v.roster).Nodup

/-- The states that writes and renders lead to, with the values that the assigns had at the last
render that went well. No such render has failures of components to report, and none leaves two
slots that point at one component. -/
inductive Updated (host : Host) (root : Template) : Option (Keyed String Value) → View → Prop where
  | start : Updated host root none (ofTemplate host root)
  | write {last : Option (Keyed String Value)} {v : View} {w : Assigns.Write} :
      Updated host root last v → w.Makes Value.Plain →
      Updated host root last (v.writeAssigns (·.write w))
  | render {last : Option (Keyed String Value)} {v v' : View} {fuel : Nat} {outcome : Outcome} :
      Updated host root last v → v.render fuel = some (.ok outcome, v') → outcome.errors = [] →
      v'.Single → Updated host root (some v.assigns.values) v'
  | fail {last : Option (Keyed String Value)} {v v' : View} {fuel : Nat} {e : Error} :
      Updated host root last v → v.render fuel = some (.error e, v') → Updated host root last v'

theorem Updated.undisturbed (hv : Updated host root last v) : Undisturbed host root [] v := by
  induction hv with
  | start => exact .start
  | write _ _ ih => exact ih.write _
  | render _ hr hclean _ ih => exact ih.render hr hclean
  | @fail _ v v' fuel e _ hr ih =>
      rw [render_error (resting_reachable ih.reachable) hr]
      exact ih

theorem Updated.sorted (hv : Updated host root last v) : v.assigns.values.Sorted := by
  induction hv with
  | start => exact Assigns.sorted_empty
  | write _ _ ih => exact Assigns.sorted_write ih _
  | render _ hr _ _ ih =>
      obtain ⟨done, p, -, -, rfl⟩ := render_ok hr
      exact ih
  | fail hv hr ih =>
      rw [render_error (resting_reachable hv.undisturbed.reachable) hr]
      exact ih

/-! ## Change tracking -/

theorem tracking_self (v : View) : v.tracking v.host.config.changeTracking = v := rfl

/-- What is not tracked stays so. -/
theorem tracking_render_off {result : Except Error Outcome} {w : View}
    (hr : (v.tracking false).render fuel = some (result, w)) : w.tracking false = w := by
  have hexec : (v.tracking false).exec (.render fuel) = some (.rendered result w.html, w) := by
    rw [exec, hr]
    rfl
  have hhost : w.host = v.host.tracking false := host_exec hexec
  obtain ⟨⟩ := w
  obtain rfl := hhost
  rfl

/-- A faithful view renders as it does without change tracking. -/
theorem Faithful.render_off (hv : v.Faithful) (fuel : Nat) :
    (v.tracking false).render fuel =
      (v.render fuel).map fun (result, w) => (result, w.tracking false) := by
  have hoff : (v.tracking false).render fuel = ((v.tracking false).render fuel).map
      fun (result, w) => (result, w.tracking false) := by
    cases hr : (v.tracking false).render fuel with
    | none => rfl
    | some x =>
        obtain ⟨result, w⟩ := x
        rw [Option.map_some]
        exact congrArg (fun w => some (result, w)) (tracking_render_off hr).symm
  cases hb : v.host.config.changeTracking with
  | false =>
      have hself : v.tracking false = v := hb ▸ tracking_self v
      rw [hself] at hoff ⊢
      exact hoff
  | true =>
      have hself : v.tracking true = v := hb ▸ tracking_self v
      have hon := hv.render_tracking fuel
      rw [hself] at hon
      rw [hon, Option.map_map]
      exact hoff

theorem trackable_of_regular (hl : l.Regular host root) : Trackable host root where
  reads := hl.regular.reads
  makes := hl.regular.makes
  kinds key := by
    obtain ⟨t, ht, hregular⟩ := hl.kinds key
    rw [ht]
    exact Kind.tracked_ofTemplate hregular.reads hregular.makes

theorem Updated.faithful (ht : Trackable host root) (hv : Updated host root last v) :
    v.Faithful := by
  induction hv with
  | start => exact faithful_start ht
  | write _ hw ih => exact ih.write hw
  | @render _ v v' fuel outcome _ hr _ _ ih =>
      have hoff := ih.render_off fuel
      rw [hr] at hoff
      exact (ih.render hoff).tracking v'.host.config.changeTracking
  | fail _ hr ih =>
      rw [render_error ih.resting hr]
      exact ih

/-- No negative zero is among the values that were rendered. -/
theorem Updated.plain (ht : Trackable host root) (hv : Updated host root last v) :
    ∀ values, last = some values → ∀ e ∈ values, e.2.Plain := by
  induction hv with
  | start => exact fun _ hlast => by cases hlast
  | write _ _ ih => exact ih
  | @render _ v _ _ _ hv _ _ _ _ =>
      rintro _ ⟨⟩ e he
      obtain ⟨base, hsince, -⟩ := (hv.faithful ht).sent
      exact hsince.plain e.1 e.2 (Keyed.get?_of_mem (Keyed.nodup_keys hv.sorted) he)
  | fail _ _ ih => exact ih

/-- The same happens without change tracking. -/
theorem Updated.tracking_off (ht : Trackable host root) (hv : Updated host root last v) :
    Updated (host.tracking false) root last (v.tracking false) := by
  induction hv with
  | start => exact .start
  | write _ hw ih => exact ih.write hw
  | @render _ v v' fuel outcome hv hr hclean hsingle ih =>
      have hoff := (hv.faithful ht).render_off fuel
      rw [hr] at hoff
      exact ih.render hoff hclean hsingle
  | @fail _ v v' fuel e hv hr ih =>
      have hoff := (hv.faithful ht).render_off fuel
      rw [hr] at hoff
      exact ih.fail hoff

/-! ## What is shown -/

/-- The page is what the template comes to at some values, and all references in it are kept up. -/
def Shows (host : Host) (root : Template) (values : Keyed String Value) (v : View) : Prop :=
  ∃ a tree, a.values = values ∧ a.equal = Value.same ∧ a.values.Sorted ∧ a.All Value.Plain ∧
    v.sent = some tree ∧ root.Filled host.config.escapeHtml (Meets v.roster) a tree

/-- Nothing is queued, and everything is what its template comes to. -/
structure UpToDate (l : Library) (host : Host) (root : Template)
    (last : Option (Keyed String Value)) (v : View) : Prop where
  /-- Nothing is queued. -/
  queue : v.roster.queue = []
  /-- Every component is what its template comes to. -/
  coherent : Coherent l host v.roster
  /-- So is the page, from the assigns of the last render. -/
  shows : ∀ values, last = some values → Shows host root values v

/-- **Every render leaves a view up to date.** -/
theorem Updated.upToDate (hl : l.Regular host root) (hoff : host.tracking false = host)
    (hv : Updated host root last v) : UpToDate l host root last v := by
  induction hv with
  | start =>
      have hnone {h : Handle} {c : Component} {P : Prop}
          (hc : (ofTemplate host root).roster.get? h = some c) : P := by
        simp [ofTemplate, ofConfig, Roster.get?] at hc
      exact ⟨rfl, ⟨fun h c hc => hnone hc, fun h c hc => hnone hc, fun h c hc => hnone hc,
        fun h c hc => hnone hc⟩, fun _ hlast => by cases hlast⟩
  | write _ _ ih => exact ⟨ih.queue, ih.coherent, ih.shows⟩
  | @render _ v v' fuel outcome hv hr hclean hsingle ih =>
      obtain ⟨base, hsince, -⟩ := (hv.faithful (trackable_of_regular hl)).sent
      obtain ⟨tree, hsent⟩ : ∃ tree, v'.sent = some tree := by
        obtain ⟨done, p, -, -, rfl⟩ := render_ok hr
        exact ⟨done.root, rfl⟩
      obtain ⟨hqueue, hcoherent, hfilled⟩ := hv.undisturbed.coherent hl hoff ih.queue ih.coherent
        hsince.plain hr hclean hsent (hsingle tree hsent)
      refine ⟨hqueue, hcoherent, fun values hlast => ⟨v.assigns, tree, Option.some.inj hlast,
        hsince.equal, hv.sorted, hsince.plain, hsent, hfilled⟩⟩
  | fail hv hr ih =>
      rw [render_error (resting_reachable hv.undisturbed.reachable) hr]
      exact ih

/-- Without change tracking, a new view comes to the same page. -/
theorem Updated.html_off (hl : l.Regular host root) (hoff : host.tracking false = host)
    (hv : Updated host root (some values) v) (hfuel : v.roster.size ≤ fuel) :
    ∃ outcome w, (scratch host root values).render fuel = some (.ok outcome, w) ∧
      outcome.errors = [] ∧ w.html = v.html := by
  obtain ⟨-, hcoherent, hshows⟩ := hv.upToDate hl hoff
  obtain ⟨a, tree, rfl, hequal, hsorted, hplain, hsent, hfilled⟩ := hshows values rfl
  have hwithin := within_reachable hv.undisturbed.reachable
  obtain ⟨outcome, w, hr, hclean, hpage⟩ :=
    exists_render (s := scratch host root a.values) hl hoff hcoherent
      (undisturbed_scratch host root a.values) (fun n hn => hwithin.size n (hwithin.capacity ▸ hn))
      rfl (copies_opened l a.values hwithin.capacity) hplain
      (Assigns.settled_setAll hequal hsorted) hfilled hfuel
  refine ⟨outcome, w, hr, hclean, ?_⟩
  rw [hpage, html, hsent]
  rfl

/-- **Rendering again is rendering from scratch.** After any writes and renders, the page is that of
a new view which is given the values as of the last render that went well, and rendered once. -/
theorem html_scratch (hl : l.Regular host root) (hv : Updated host root (some values) v)
    (hfuel : v.roster.size ≤ fuel) :
    ∃ outcome w, (scratch host root values).render fuel = some (.ok outcome, w) ∧
      outcome.errors = [] ∧ w.html = v.html := by
  have ht := trackable_of_regular hl
  obtain ⟨outcome, w, hr, hclean, hpage⟩ :=
    (hv.tracking_off ht).html_off (hl.tracking false) rfl hfuel
  -- the new view renders to the same page with change tracking
  have hfaithful : (scratch host root values).Faithful :=
    (faithful_start ht).write (w := .setAll values) (hv.plain ht values rfl)
  have hmap := hfaithful.render_off fuel
  obtain ⟨⟨result, w'⟩, hr', heq⟩ := Option.map_eq_some_iff.mp (hmap.symm.trans hr)
  obtain ⟨rfl, rfl⟩ := Prod.mk.inj heq
  exact ⟨outcome, w', hr', hclean, hpage⟩

/-! ## A deck of cards -/

/-- Writes and renders, one after the other, as long as there is nothing to object to. -/
def replay (last : Option (Keyed String Value)) (v : View) :
    List Command → Option (Option (Keyed String Value) × View)
  | [] => some (last, v)
  | .write w :: cmds => replay last (v.writeAssigns (·.write w)) cmds
  | .render fuel :: cmds =>
    match v.render fuel with
    | some (.ok outcome, v') =>
      if outcome.errors.isEmpty && v'.sent.all fun t => decide (pointed t v'.roster).Nodup then
        replay (some v.assigns.values) v' cmds
      else none
    | some (.error _, v') => replay last v' cmds
    | none => none
  | _ => none

theorem Updated.replay {cmds : List Command} {last' : Option (Keyed String Value)}
    (hv : Updated host root last v) (hcmds : ∀ cmd ∈ cmds, cmd.Plain)
    (hrun : View.replay last v cmds = some (last', v')) : Updated host root last' v' := by
  induction cmds generalizing last v with
  | nil =>
      obtain ⟨rfl, rfl⟩ := Prod.mk.inj (Option.some.inj hrun)
      exact hv
  | cons cmd cmds ih =>
      obtain ⟨hcmd, hrest⟩ := List.forall_mem_cons.mp hcmds
      unfold View.replay at hrun
      split at hrun
      · next heq => cases heq
      · next w _ heq =>
          obtain ⟨rfl, rfl⟩ := List.cons.inj heq
          exact ih (hv.write hcmd) hrest hrun
      · next fuel _ heq =>
          obtain ⟨rfl, rfl⟩ := List.cons.inj heq
          split at hrun
          · next outcome w hr =>
              split at hrun
              · next hgood =>
                  rw [Bool.and_eq_true, List.isEmpty_iff] at hgood
                  refine ih (hv.render hr hgood.1 fun tree hsent => ?_) hrest hrun
                  have hall := hgood.2
                  rw [hsent] at hall
                  exact of_decide_eq_true hall
              · cases hrun
          · next e w hr => exact ih (hv.fail hr) hrest hrun
          · cases hrun
      · cases hrun

/-- A badge shows a text. -/
def badge : Template :=
  .hole "<i>" (.value (.paths [⟨"text", []⟩]) fun s => s.value ⟨"text", []⟩) (.text "</i>")

/-- A card shows its title in a badge of its own. -/
def card : Template :=
  .hole "<b>" (.component ⟨"badge", "badge"⟩
    (fun s => (s.string "id").map (· ++ "-badge"))
    fun s => do return [("text", ← s.get "title")]) (.text "</b>")

/-- A name, and cards of one title. -/
def deck : Template :=
  .hole "" (.value (.paths [⟨"name", []⟩]) fun s => s.value ⟨"name", []⟩)
    (.hole "<ul>" (.loop (.paths [⟨"cards", []⟩]) (fun s => s.list "cards") "card"
      (.hole "<li>" (.component ⟨"card", "card"⟩ (fun s => s.string "card") fun s => do
        return [("id", ← s.get "card"), ("title", ← s.get "title")]) (.text "</li>")))
      (.text "</ul>"))

def deckHost : Host := ⟨fun key => Kind.ofTemplate (if key = "card" then card else badge), {}⟩

def deckLibrary : Library where
  template kind := if kind = "card" then card else badge
  names kind := if kind = "card" then ["id", "title"] else ["text"]

/-- The first render fails for want of a name. Then cards come and go. -/
def deckRun : List Command :=
  [.render 9, .write (.set "name" (.str "Ada")), .write (.set "title" (.str "old")),
    .write (.set "cards" (.arr [.str "x", .str "y"])), .render 9,
    .write (.set "cards" (.arr [.str "y"])), .render 9,
    .write (.set "cards" (.arr [.str "z", .str "y"])), .write (.set "title" (.str "new")),
    .render 9, .write (.set "name" (.str "Eve"))]

theorem regular_badge : badge.Regular where
  reads := ⟨fun _ _ _ h => h.value (List.mem_singleton.mpr rfl), trivial⟩
  makes := ⟨trivial, trivial⟩
  values := ⟨fun _ => rfl, trivial⟩
  free := ⟨trivial, trivial⟩

theorem regular_card : card.Regular where
  reads := ⟨trivial, trivial⟩
  makes := by
    refine ⟨fun s fields hs hfields => ?_, trivial⟩
    obtain ⟨v, hv, hfields⟩ := bind_ok hfields
    obtain rfl := Except.ok.inj hfields
    exact List.forall_mem_singleton.mpr (hs.get hv)
  values := ⟨⟨fun _ => rfl, fun _ => rfl⟩, trivial⟩
  free := ⟨trivial, trivial⟩

theorem regular_deck : deckLibrary.Regular deckHost deck where
  kinds key := by
    refine ⟨_, rfl, ?_⟩
    split
    · exact regular_card
    · exact regular_badge
  regular := by
    refine ⟨⟨?_, ⟨?_, trivial, trivial⟩, trivial⟩, ⟨trivial, ⟨?_, ?_, trivial⟩, trivial⟩, ?_, ?_⟩
    · exact fun _ _ _ h => h.value (List.mem_singleton.mpr rfl)
    · exact fun _ _ _ h => h.list (List.mem_singleton.mpr rfl)
    · exact fun s values hs h => plain_list hs h
    · intro s fields hs hfields
      obtain ⟨id, hid, hfields⟩ := bind_ok hfields
      obtain ⟨title, htitle, hfields⟩ := bind_ok hfields
      obtain rfl := Except.ok.inj hfields
      exact List.forall_mem_cons.mpr ⟨hs.get hid, List.forall_mem_singleton.mpr (hs.get htitle)⟩
    · exact ⟨fun _ => rfl, ⟨fun _ => rfl, ⟨fun _ => rfl, fun _ => rfl⟩, trivial⟩, trivial⟩
    · exact ⟨trivial, ⟨trivial, trivial⟩, trivial⟩
  serves_root := by
    refine List.forall_mem_singleton.mpr ⟨rfl, fun s fields hfields => ?_⟩
    obtain ⟨id, -, hfields⟩ := bind_ok hfields
    obtain ⟨title, -, hfields⟩ := bind_ok hfields
    obtain rfl := Except.ok.inj hfields
    exact .refl _
  serves kind := by
    change deckLibrary.Serves _ (if kind = "card" then card else badge)
    split
    · refine List.forall_mem_singleton.mpr ⟨rfl, fun s fields hfields => ?_⟩
      obtain ⟨title, -, hfields⟩ := bind_ok hfields
      obtain rfl := Except.ok.inj hfields
      exact .refl _
    · exact List.forall_mem_nil _
  nodup kind := by
    change (if kind = "card" then ["id", "title"] else ["text"]).Nodup
    split <;> decide
  acyclic kind hcycle := by
    -- only cards have something in them, and it is a badge
    have huses {kind other : String} (h : deckLibrary.Uses kind other) :
        kind = "card" ∧ other = "badge" := by
      obtain ⟨e, he, rfl⟩ := h
      change e ∈ (if kind = "card" then card else badge).references at he
      split at he
      · next heq =>
          obtain rfl := List.mem_singleton.mp he
          exact ⟨heq, rfl⟩
      · cases he
    obtain ⟨_, hfirst, -⟩ := Relation.TransGen.head'_iff.mp hcycle
    obtain ⟨_, -, hlast⟩ := Relation.TransGen.tail'_iff.mp hcycle
    have heq := (huses hfirst).1.symm.trans (huses hlast).2
    exact absurd heq (by decide)

/-- After all this, the deck is as it is from scratch. -/
theorem deck_html_scratch : ∃ values v outcome w, Updated deckHost deck (some values) v ∧
    v.roster.size ≤ 9 ∧ (scratch deckHost deck values).render 9 = some (.ok outcome, w) ∧
    outcome.errors = [] ∧ w.html = v.html := by
  have hrun : ((replay none (ofTemplate deckHost deck) deckRun).any fun x =>
      x.1.isSome && decide (x.2.roster.size ≤ 9)) = true := by decide +kernel
  obtain ⟨⟨last, v⟩, hreplay, htest⟩ := (Option.any_eq_true ..).mp hrun
  rw [Bool.and_eq_true, decide_eq_true_eq] at htest
  obtain ⟨values, rfl⟩ := Option.isSome_iff_exists.mp htest.1
  have hplain : ∀ cmd ∈ deckRun, cmd.Plain := by
    simp [deckRun, Command.Plain, Assigns.Write.Makes, Value.Plain, Value.PlainItems]
  have hv := Updated.start.replay hplain hreplay
  obtain ⟨outcome, w, hr, hclean, hpage⟩ := html_scratch regular_deck hv htest.2
  exact ⟨values, v, outcome, w, hv, htest.2, hr, hclean, hpage⟩

end ViewSync.View
