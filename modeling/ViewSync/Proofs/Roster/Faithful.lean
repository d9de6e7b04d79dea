import ViewSync.Proofs.Pass.Keeping
import ViewSync.Proofs.Roster.Patches

/-!
# Records that tell the truth

A record is *faithful* when its tree is current at assigns from which its own came by writes that
they have recorded. Then it may be rendered with change tracking or without; and so may the whole
queue, since whatever a pass does leaves all records faithful.
-/

namespace ViewSync

/-- Assigns come from others by writes of such values. -/
def Assigns.Writes (Good : Value → Prop) (a b : Assigns) : Prop :=
  ∃ ws : List Assigns.Write, (∀ w ∈ ws, w.Makes Good) ∧ b = ws.foldl Assigns.write a

/-- A kind of component always renders the same template, whose callbacks read no more than it
says, and gets at assigns by writing to them. No negative zero comes from any of it. -/
structure Kind.Tracked (k : Kind) : Prop where
  /-- It renders one template, which reads what it says. -/
  template : ∃ t, (∀ a, k.render a = t) ∧ t.ReadsOnly [] ∧ t.Makes Value.Plain
  /-- A new component has what was written to it. -/
  mount : ∀ a, k.mount Assigns.empty = .ok a → Assigns.Writes Value.Plain Assigns.empty a
  /-- Taking in props is writing. -/
  update : ∀ (props : Fields) a, (∀ f ∈ props, f.2.Plain) → a.All Value.Plain →
    Assigns.Writes Value.Plain a (k.update props a).1

/-- So does the kind that renders such a template from its props. -/
theorem Kind.tracked_ofTemplate {t : Template} (hreads : t.ReadsOnly [])
    (hmakes : t.Makes Value.Plain) : (Kind.ofTemplate t).Tracked where
  template := ⟨t, fun _ => rfl, hreads, hmakes⟩
  mount a ha := by
    obtain rfl := Except.ok.inj ha
    exact ⟨[], List.forall_mem_nil _, rfl⟩
  update props a hprops _ := ⟨[.merge props], List.forall_mem_singleton.mpr hprops, rfl⟩

theorem Assigns.Since.of_writes {base a b : Assigns} (h : Since base a)
    (hw : Writes Value.Plain a b) : Since base b := by
  obtain ⟨ws, hws, rfl⟩ := hw
  exact h.writes hws

variable {host : Host}

/-- The tree of a component is current at assigns that its own came from. -/
def Component.Faithful (host : Host) (c : Component) : Prop :=
  ∃ base, Assigns.Since base c.assigns ∧ ∀ tree, c.tree = some tree →
    ((host.kinds c.kind.key).render base).Current host.config.escapeHtml (Scope.ofAssigns base) tree

namespace Component.Faithful

variable {c : Component}

/-- A component may be rendered either way. -/
theorem template_tracking (hkinds : ∀ key, (host.kinds key).Tracked) (hc : c.Faithful host) :
    Pass.template (host.tracking true) (Scope.ofAssigns c.assigns)
        ((host.kinds c.kind.key).render c.assigns) c.tree =
      Pass.template (host.tracking false) (Scope.ofAssigns c.assigns)
        ((host.kinds c.kind.key).render c.assigns) c.tree := by
  obtain ⟨base, hsince, hcurrent⟩ := hc
  obtain ⟨t, hrender, hreads, -⟩ := (hkinds c.kind.key).template
  -- it renders the same template at the base as at its assigns
  rw [hrender] at hcurrent ⊢
  exact Pass.template_tracking hsince hreads hcurrent

/-- Once it was rendered, its assigns are the base. -/
theorem rendered (hc : c.Faithful host) {tree : Tree}
    (htree : ((host.kinds c.kind.key).render c.assigns).Current host.config.escapeHtml
      (Scope.ofAssigns c.assigns) tree) :
    Faithful host { c with tree := some tree, assigns := c.assigns.settled } := by
  obtain ⟨base, hsince, -⟩ := hc
  refine ⟨c.assigns, hsince.settled, ?_⟩
  rintro _ ⟨⟩
  exact htree

/-- It may take in props, and change its owner. -/
theorem update (hkinds : ∀ key, (host.kinds key).Tracked) (hc : c.Faithful host)
    {props : Fields} (hprops : ∀ f ∈ props, f.2.Plain) (owner : Option StreamEntry) :
    Faithful host
      { c with assigns := ((host.kinds c.kind.key).update props c.assigns).1, owner } := by
  obtain ⟨base, hsince, hcurrent⟩ := hc
  have hwrites := (hkinds c.kind.key).update props c.assigns hprops hsince.plain
  exact ⟨base, hsince.of_writes hwrites, hcurrent⟩

/-- Its tree may be blanked. -/
theorem blanked (hc : c.Faithful host) (gone : List Handle) :
    (Roster.blanked gone c).Faithful host := by
  obtain ⟨base, hsince, hcurrent⟩ := hc
  refine ⟨base, hsince, fun tree htree => ?_⟩
  obtain ⟨old, hold, rfl⟩ := Option.map_eq_some_iff.mp htree
  exact (hcurrent old hold).blank gone

end Component.Faithful

namespace Roster

/-- All records are faithful. -/
def Faithful (host : Host) (r : Roster) : Prop := ∀ h c, r.get? h = some c → c.Faithful host

theorem Faithful.put {r : Roster} (hr : r.Faithful host) {h : Handle} {c c' : Component}
    (hc : r.get? h = some c) (hc' : c'.Faithful host) : (r.put h c').Faithful host := by
  intro k d hd
  rw [get?_put (lt_of_get? hc)] at hd
  split at hd
  · obtain rfl := Option.some.inj hd
    exact hc'
  · exact hr k d hd

theorem Faithful.edit (hkinds : ∀ key, (host.kinds key).Tracked) {r r' : Roster}
    (harena : r.Arena) (hr : r.Faithful host) (he : Edit host.kinds Value.Plain r r') :
    r'.Faithful host := by
  cases he with
  | marks seen drawn => exact hr
  | keep hc => exact hr
  | @rewrite h c props owner seen queue hc hprops _ =>
      have hc' := (hr h c hc).update hkinds hprops (owner <|> c.owner)
      exact Faithful.put (r := r.keepState c) hr hc hc'
  | @create id kind props a b owner seen queue hid hmount hupdate hprops _ _ =>
      have hnew : Assigns.Since Assigns.empty b := by
        have ha := Assigns.Since.empty.of_writes ((hkinds kind.key).mount a hmount)
        have hwrites := (hkinds kind.key).update props a hprops ha.plain
        rw [hupdate] at hwrites
        exact ha.of_writes hwrites
      intro k d hd
      have hd := (get?_create harena.spare_empty id kind b owner k).symm.trans hd
      split at hd
      · -- a new record has no tree, and its assigns started from none
        obtain rfl := Option.some.inj hd
        exact ⟨Assigns.empty, hnew, fun _ h => by cases h⟩
      · exact hr k d hd

/-- Retiring leaves records faithful. -/
theorem Faithful.retires {r r' : Roster} (hr : r.Faithful host) (h : Retires r r') :
    r'.Faithful host := by
  intro k c' hc'
  obtain ⟨c, hc, heq, -⟩ := h.record k c' hc'
  rw [heq]
  exact hr k c hc

/-! ## Rendering the queue -/

/-- **Draining leaves all records faithful.** -/
theorem Faithful.steady (hkinds : ∀ key, (host.kinds key).Tracked) :
    Steady (host.tracking false) Value.Plain
      (fun c tree => ((host.kinds c.kind.key).render c.assigns).Current host.config.escapeHtml
        (Scope.ofAssigns c.assigns) tree)
      fun _ r _ => r.Arena ∧ r.Faithful host where
  good_str _ := trivial
  arena hr := hr.1
  edit hr he := ⟨hr.1.edit he, hr.2.edit hkinds hr.1 he⟩
  skip hr _ _ := ⟨hr.1.congr rfl rfl rfl rfl rfl, hr.2⟩
  start hr _ _ _ := ⟨hr.1.congr rfl rfl rfl rfl rfl, hr.2⟩
  yields {r former h c P} hr hc hP := by
    obtain ⟨base, hsince, -⟩ := hr.2 h c hc
    obtain ⟨t, hrender, -, hmakes⟩ := (hkinds c.kind.key).template
    have hkeep := Pass.yields_template hP
      (s := Scope.ofAssigns c.assigns) (t := t) ⟨List.forall_mem_nil _, hsince.plain⟩ hmakes c.tree
    have hcurrent := Pass.current_template host (Scope.ofAssigns c.assigns)
      ((host.kinds c.kind.key).render c.assigns) c.tree
    -- what the walk keeps and what it yields are shown apart
    intro p hp
    refine ⟨?_, (hcurrent p trivial).2⟩
    have hsame : ((host.tracking false).kinds c.kind.key).render c.assigns = t := hrender _
    rw [hsame]
    exact (hkeep p hp).1
  rendered hr hc _ htree := ⟨hr.1.put hc rfl rfl rfl, hr.2.put hc ((hr.2 _ _ hc).rendered htree)⟩
  failed {r former h c} hr _ _ := by
    split
    · exact ⟨hr.1.congr rfl rfl rfl rfl rfl, hr.2⟩
    · exact hr

theorem renderOne_tracking (hkinds : ∀ key, (host.kinds key).Tracked) {p : Pass}
    (hr : p.roster.Faithful host) (h : Handle) (former : FormerTrees) :
    renderOne (host.tracking true) p h former = renderOne (host.tracking false) p h former := by
  unfold renderOne
  cases hc : p.roster.get? h with
  | none => rfl
  | some c =>
      have htemplate := (hr h c hc).template_tracking hkinds
      simp only [Host.tracking] at htemplate ⊢
      rw [htemplate]

theorem drain_tracking (hkinds : ∀ key, (host.kinds key).Tracked) {fuel : Nat} {p : Pass}
    {former : FormerTrees} (hoffers : p.Offers Value.Plain) (harena : p.roster.Arena)
    (hr : p.roster.Faithful host) :
    drain (host.tracking true) fuel p former = drain (host.tracking false) fuel p former := by
  induction fuel generalizing p former with
  | zero =>
      unfold drain
      cases p.roster.queue <;> rfl
  | succ fuel ih =>
      unfold drain
      cases hq : p.roster.queue with
      | nil => rfl
      | cons h queue =>
          dsimp only
          have hone := renderOne_tracking hkinds
            (p := { p with roster := { p.roster with queue } }) hr h former
          rw [hone]
          -- what comes after is again faithful, so the rest of the queue goes the same way too
          have hinv : p.roster.Arena ∧ p.roster.Faithful host := ⟨harena, hr⟩
          have hafter := (Faithful.steady hkinds).renderOne former hoffers hinv hq
          obtain ⟨hoffers', -, hok⟩ := hafter
          generalize renderOne (host.tracking false) _ h former = after at hoffers' hok ⊢
          obtain ⟨result, former', p'⟩ := after
          cases result with
          | error e => rfl
          | ok u => exact ih hoffers' (hok rfl).1 (hok rfl).2

/-- **The queue may be rendered either way.** -/
theorem renderQueue_tracking (fuel : Nat) (hkinds : ∀ key, (host.kinds key).Tracked) {p : Pass}
    (hoffers : p.Offers Value.Plain) (harena : p.roster.Arena) (hr : p.roster.Faithful host) :
    renderQueue (host.tracking true) fuel p = renderQueue (host.tracking false) fuel p := by
  unfold renderQueue
  rw [drain_tracking hkinds hoffers harena hr]

/-! ## Comparing -/

theorem Faithful.patches {r : Roster} (hr : r.Faithful host) (former : FormerTrees) :
    (r.patches former).2.Faithful host := by
  induction former generalizing r with
  | nil => exact hr
  | cons e former ih =>
      obtain ⟨h, before⟩ := e
      unfold Roster.patches
      cases hc : r.get? h with
      | none => exact ih hr
      | some c =>
          cases ht : c.tree with
          | none =>
              simp only [ht]
              exact ih hr
          | some tree =>
              have hblank := (hr h c hc).blanked r.stillborn
              have hput := hr.put hc hblank
              simp only [Roster.blanked, ht] at hput
              simp only [ht]
              cases Tree.patchFrom .nowhere before (r.blankStillborn tree) with
              | error e => exact hput
              | ok q => exact ih hput

/-- Rendering the queue leaves all records faithful. -/
theorem Faithful.renderQueue (hkinds : ∀ key, (host.kinds key).Tracked) {fuel : Nat} {p p' : Pass}
    {ps : Keyed Handle Patch} (hoffers : p.Offers Value.Plain) (harena : p.roster.Arena)
    (hr : p.roster.Faithful host)
    (hq : Roster.renderQueue (host.tracking false) fuel p = some (.ok ps, p')) :
    p'.roster.Faithful host := by
  obtain ⟨former, p₁, r, hd, hpatches, rfl⟩ := renderQueue_ok hq
  obtain ⟨-, hok⟩ := (Faithful.steady hkinds).drain hoffers ⟨harena, hr⟩ hd
  obtain ⟨⟨-, hdrained⟩, -⟩ := hok rfl
  -- dropping a record changes no other
  have hdropped : p₁.roster.dropStillborn.Faithful host := by
    obtain ⟨-, -, hget⟩ := dropStillborn_rest p₁.roster
    intro h c hc
    rw [hget] at hc
    split at hc
    · cases hc
    · exact hdrained h c hc
  have hcompared := hdropped.patches former
  rw [hpatches] at hcompared
  exact hcompared

/-- So does telling the client which components are gone. -/
theorem Faithful.reclaim_tell {r r' : Roster} (hr : r.Faithful host) (h : Retires r r')
    (harena : r'.Arena) : r'.tell.2.reclaim.Faithful host := by
  intro k c hc
  obtain ⟨hold, -, -⟩ := get?_reclaim_tell_of_retires h harena hc
  exact hr k c hold

end Roster

end ViewSync
