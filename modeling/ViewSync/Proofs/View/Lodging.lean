import ViewSync.Proofs.View.Homes
import ViewSync.Proofs.View.Idle
import ViewSync.Proofs.View.Referenced

/-!
# How long the components of stream entries live

In a run where every component has a home, which is the stream entry that alone refers to it, or
none if no entry does, a component of an entry is live exactly when the client holds the entry and
the latest pass that rendered the entry kept the component. A pass keeps what it refers to. It also
spares what it does not refer to any more, if it comes upon it in a tree from before the pass: the
pass follows the tree of an unchanged component down to the components that it renders later on, and
so sees what these gave up.
-/

namespace ViewSync.View

open Roster

/-! ## Runs -/

/-- Whether a command leaves it to the templates to refer to the components of entries. -/
def Command.isHomely (home : String → Option StreamEntry) : Command → Bool
  | .unmount _ => false
  | .mount id .. => (home id).isNone
  | _ => true

/-- The passes of a run that went well, the last one first. -/
def passesAfter (passes : List PassRecord) (v : View) : Command → List PassRecord
  | .render fuel =>
    match v.renderAll fuel v.opened with
    | some (.ok done, p) => ⟨v, fuel, done.root, p⟩ :: passes
    | _ => passes
  | _ => passes

/-- The states of a view of a template after a run without failures in which every component is
referred to from its home, with the passes of the run. -/
inductive Homely (host : Host) (template : Template) (home : String → Option StreamEntry) :
    List PassRecord → View → Prop where
  | start : Homely host template home [] (ofTemplate host template)
  | step {passes : List PassRecord} {v v' : View} {cmd : Command} {answer : Answer} :
      Homely host template home passes v → v.exec cmd = some (answer, v') →
      cmd.isHomely home = true → answer.isClean = true →
      (∀ x ∈ passesAfter passes v cmd, x.Homely home) →
      Homely host template home (passesAfter passes v cmd) v'

/-- The latest pass that has rendered an entry. -/
def latest (passes : List PassRecord) (e : StreamEntry) : Option PassRecord :=
  passes.find? fun x => .entry e ∈ x.marks

theorem latest_cons (x : PassRecord) (passes : List PassRecord) (e : StreamEntry) :
    latest (x :: passes) e = if .entry e ∈ x.marks then some x else latest passes e := by
  by_cases hin : .entry e ∈ x.marks <;> simp [latest, hin]

variable {host : Host} {template : Template} {home : String → Option StreamEntry}
variable {passes : List PassRecord} {v v' : View} {fuel : Nat} {done : Rendering} {p : Pass}

theorem passesAfter_render (hall : v.renderAll fuel v.opened = some (.ok done, p)) :
    passesAfter passes v (.render fuel) = ⟨v, fuel, done.root, p⟩ :: passes := by
  simp only [passesAfter, hall]

theorem Homely.undisturbed (hv : Homely host template home passes v) :
    ∃ mounted, Undisturbed host template mounted v := by
  induction hv with
  | start => exact ⟨[], .start⟩
  | @step passes v v' cmd answer _ hexec hcmd hclean _ ih =>
      obtain ⟨mounted, hu⟩ := ih
      refine ⟨_, hu.step hexec ?_ hclean⟩
      cases cmd with
      | unmount => cases hcmd
      | _ => rfl

/-! ## Who lives, and why -/

namespace PassRecord

/-- A pass keeps a component of an entry that it has rendered: it refers to it from there, or spares
it. -/
def Keeps (x : PassRecord) (e : StreamEntry) (id : String) : Prop :=
  x.Refers (some e) id ∨ x.Spares (some e) id

/-- A pass has drawn a tree for a component. -/
def Drew (x : PassRecord) (k : Handle) (t : Tree) : Prop :=
  ∃ d ∈ x.view.drawings x.fuel, d.handle = k ∧ d.result = .ok t

end PassRecord

/-- Between passes: components are owned by their homes; those of entries live as long as the client
holds the entry and the latest pass to render it kept them; and a slot outside of entries, in the
tree of a component, points at the component that it was drawn for. -/
structure Lodged (home : String → Option StreamEntry) (passes : List PassRecord) (v : View) :
    Prop where
  /-- Components are owned by their homes. -/
  owner : ∀ h c, v.roster.get? h = some c → c.owner = home c.id
  /-- A component of an entry lives as long as the client holds the entry and the latest pass kept
  it. -/
  lives : ∀ id e, home id = some e → ((∃ h, v.roster.handle? id = some h) ↔
    v.streams.holds e = true ∧ ∃ x, latest passes e = some x ∧ x.Keeps e id)
  /-- A slot outside of entries points at the component that it was drawn for. -/
  slots : ∀ k t h, v.roster.tree? k = some t → .slot none h ∈ t.marks →
    ∃ x ∈ passes, x.Drew k t ∧ ∃ id, home id = none ∧
      x.pass.roster.handle? id = some h ∧ v.roster.handle? id = some h

/-- Where there are no components, and the client holds nothing, all is in order. -/
theorem lodged_of_empty (hv : v.roster.Arena) (hnone : ∀ h, v.roster.get? h = none)
    (hholds : ∀ e, v.streams.holds e = false) : Lodged home passes v := by
  refine ⟨fun h c hc => ?_, fun id e _ => iff_of_false ?_ ?_, fun k t h ht => ?_⟩
  · cases (hnone h).symm.trans hc
  · rintro ⟨h, hid⟩
    obtain ⟨c, hc, -⟩ := (hv.ids_iff id h).mp hid
    cases (hnone h).symm.trans hc
  · rintro ⟨hheld, -⟩
    cases (hholds e).symm.trans hheld
  · rw [tree?_of_none (hnone k)] at ht
    cases ht

namespace Lodged

/-- Between passes records may change, and new ones come up outside of entries. -/
theorem edit (hl : Lodged home passes v) (hv : v.roster.Arena) {r : Roster} (hr : r.Arena)
    (hgrows : Grows v.roster r) (hrecord : ∀ h c, r.get? h = some c →
      (∃ d, v.roster.get? h = some d ∧ c.id = d.id ∧ c.owner = d.owner) ∨
        home c.id = none ∧ c.owner = none) (unsent : Concerns) :
    Lodged home passes { v with roster := r, unsent } := by
  have hstays {id : String} {h : Handle} (hid : v.roster.handle? id = some h) :
      r.handle? id = some h := by
    obtain ⟨c, hc, rfl, hlive⟩ := (hv.ids_iff id h).mp hid
    obtain ⟨c', hc', hcid, hret, -⟩ := hgrows.record h c hc
    exact (hr.ids_iff c.id h).mpr ⟨c', hc', hcid, hret.trans hlive⟩
  refine ⟨fun h c hc => ?_, fun id e hid => ?_, fun k t h ht hin => ?_⟩
  · rcases hrecord h c hc with ⟨d, hd, hcid, howner⟩ | ⟨hhome, howner⟩
    · rw [howner, hcid]
      exact hl.owner h d hd
    · rw [howner, hhome]
  · refine Iff.trans ⟨?_, ?_⟩ (hl.lives id e hid)
    · rintro ⟨h, hh⟩
      obtain ⟨c, hc, rfl, hlive⟩ := (hr.ids_iff id h).mp hh
      rcases hrecord h c hc with ⟨d, hd, hcid, -⟩ | ⟨hhome, -⟩
      · obtain ⟨c', hc', -, hret, -⟩ := hgrows.record h d hd
        obtain rfl := Option.some.inj (hc.symm.trans hc')
        exact ⟨h, (hv.ids_iff c.id h).mpr ⟨d, hd, hcid.symm, hret.symm.trans hlive⟩⟩
      · cases hid.symm.trans hhome
    · rintro ⟨h, hh⟩
      exact ⟨h, hstays hh⟩
  · obtain ⟨x, hx, hdrew, id, hid, hknown, hh⟩ :=
      hl.slots k t h ((hgrows.tree? k).symm.trans ht) hin
    exact ⟨x, hx, hdrew, id, hid, hknown, hstays hh⟩

/-- Queueing changes for a stream does not matter. -/
theorem withStreams (hl : Lodged home passes v) {s : Streams}
    (hholds : ∀ e, s.holds e = v.streams.holds e) (unsent : Concerns) :
    Lodged home passes { v with streams := s, unsent } :=
  ⟨hl.owner, fun id e hid => hholds e ▸ hl.lives id e hid, hl.slots⟩

end Lodged

/-! ## Passes -/

/-- At the end of a pass it is settled which entries the client holds, before components are retired
and the client is told. -/
theorem roster_settle (v : View) (plans : List (String × Stream.Plan)) (done : Rendering)
    (p : Pass) : (v.settle plans done p).2.roster =
      (p.roster.closePass (v.settle plans done p).2.streams.holds).2.tell.2.reclaim := rfl

/-- The handles of the components of an entry, after a pass. -/
theorem Housed.handle?_settle (hx : Housed home ⟨v, fuel, done.root, p⟩)
    (hs : Sighted v fuel done p) {id : String} {e : StreamEntry} (hid : home id = some e)
    {h : Handle} :
    (v.settle v.streams.plans done p).2.roster.handle? id = some h ↔
      p.roster.handle? id = some h ∧
        (v.settle v.streams.plans done p).2.streams.holds e = true ∧
        (.entry e ∈ v.marks fuel done.root → h ∈ p.roster.seen) := by
  generalize hholds : (v.settle v.streams.plans done p).2.streams.holds = holds
  have hdrawn : .entry e ∈ v.marks fuel done.root ↔ e ∈ p.roster.drawn := (hx.drawn e).symm
  have hleaves {c : Component} (hc : p.roster.get? h = some c) (hcid : c.id = id) :
      p.roster.leaves holds c = false ↔
        holds e = true ∧ (e ∈ p.roster.drawn → h ∈ p.roster.seen) := by
    have howner : c.owner = some e := (hx.owner h c hc).trans (hcid ▸ hid)
    simp [leaves, howner, isLost, hs.arena.handle_eq h c hc]
  rw [roster_settle, hholds, handle?_reclaim_close hs.arena, hdrawn]
  constructor
  · rintro ⟨c, hc, hcid, hlive, hstays⟩
    exact ⟨(hs.arena.ids_iff id h).mpr ⟨c, hc, hcid, hlive⟩, (hleaves hc hcid).mp hstays⟩
  · rintro ⟨hhandle, hstays⟩
    obtain ⟨c, hc, hcid, hlive⟩ := (hs.arena.ids_iff id h).mp hhandle
    exact ⟨c, hc, hcid, hlive, (hleaves hc hcid).mpr hstays⟩

/-- **A pass that renders an entry leaves those of its components that it keeps, if the client holds
the entry then.** -/
theorem Housed.kept_of_drawn (hx : Housed home ⟨v, fuel, done.root, p⟩)
    (hs : Sighted v fuel done p) {id : String} {e : StreamEntry} (hid : home id = some e)
    (hentry : .entry e ∈ v.marks fuel done.root) :
    (∃ h, (v.settle v.streams.plans done p).2.roster.handle? id = some h) ↔
      (v.settle v.streams.plans done p).2.streams.holds e = true ∧
        PassRecord.Keeps ⟨v, fuel, done.root, p⟩ e id := by
  have hseen {h : Handle} (hin : .slot (some e) h ∈ v.marks fuel done.root) :
      h ∈ p.roster.seen := by
    rcases (hx.handles h).mpr ⟨some e, hin⟩ with hpage | ⟨d, hd, t, ht, hin⟩
    · exact hs.root h hpage
    · obtain ⟨u, hu, hall⟩ := hs.drawn d hd
      obtain rfl := Except.ok.inj (ht.symm.trans hu)
      exact hall h hin
  simp only [hx.handle?_settle hs hid]
  constructor
  · rintro ⟨h, hhandle, hholds, hsees⟩
    refine ⟨hholds, ?_⟩
    by_cases hrefers : PassRecord.Refers ⟨v, fuel, done.root, p⟩ (some e) id
    · exact .inl hrefers
    · rcases hx.fresh id h hhandle with hold | hslot
      · exact .inr ⟨hrefers, h, hold, hsees hentry⟩
      · exact absurd ⟨h, hid ▸ hslot, hhandle⟩ hrefers
  · rintro ⟨hholds, ⟨h, hslot, hhandle⟩ | ⟨-, h, hold, hsees⟩⟩
    · exact ⟨h, hhandle, hholds, fun _ => hseen hslot⟩
    · exact ⟨h, hx.kept id h hold, hholds, fun _ => hsees⟩

/-- **A pass that does not render an entry leaves all of its components, if the client holds the
entry then.** -/
theorem Housed.kept_of_undrawn (hx : Housed home ⟨v, fuel, done.root, p⟩)
    (hs : Sighted v fuel done p) {id : String} {e : StreamEntry} (hid : home id = some e)
    (hentry : .entry e ∉ v.marks fuel done.root) :
    (∃ h, (v.settle v.streams.plans done p).2.roster.handle? id = some h) ↔
      (v.settle v.streams.plans done p).2.streams.holds e = true ∧
        ∃ h, v.roster.handle? id = some h := by
  simp only [hx.handle?_settle hs hid]
  constructor
  · rintro ⟨h, hhandle, hholds, -⟩
    refine ⟨hholds, h, (hx.fresh id h hhandle).resolve_right fun hslot => hentry ?_⟩
    exact (hx.complete.slot e h (hid ▸ hslot)).resolve_left (Option.some_ne_none e).symm
  · rintro ⟨hholds, h, hold⟩
    exact ⟨h, hx.kept id h hold, hholds, fun hin => absurd hin hentry⟩

/-- **A slot outside of entries keeps its component as long as the component is there that it is
in.** -/
theorem Housed.kept_of_slot (hx : Housed home ⟨v, fuel, done.root, p⟩)
    (hs : Sighted v fuel done p) {k h : Handle} {t : Tree} (hfits : t.Fits)
    (ht : (v.settle v.streams.plans done p).2.roster.tree? k = some t)
    (hin : .slot none h ∈ t.marks) {id : String} (hid : home id = none)
    (hknown : p.roster.handle? id = some h) :
    (v.settle v.streams.plans done p).2.roster.handle? id = some h := by
  rw [roster_settle] at ht ⊢
  generalize (v.settle v.streams.plans done p).2.streams.holds = holds at ht ⊢
  obtain ⟨d, hd, -⟩ := Option.bind_eq_some_iff.mp ht
  obtain ⟨hd', hlive, -⟩ := (get?_reclaim_close hs.arena).mp hd
  have hk : (p.roster.closePass holds).2.tell.2.reclaim.handle? d.id = some k :=
    ((hs.arena.closePass holds).reclaim_tell.arena.ids_iff d.id k).mpr ⟨d, hd, rfl, hlive⟩
  have hseen := hs.seen_of_slot hk ht (hfits.mem_handles.mpr ⟨_, hin⟩)
  obtain ⟨c, hc, hcid, hclive⟩ := (hs.arena.ids_iff id h).mp hknown
  refine (handle?_reclaim_close hs.arena).mpr ⟨c, hc, hcid, hclive, ?_⟩
  have howner : c.owner = none := (hx.owner h c hc).trans (hcid ▸ hid)
  simp [leaves, howner, hs.arena.handle_eq h c hc, hseen]

/-- **A pass goes on with the lodging.** -/
theorem Lodged.pass {mounted : List Handle} (hl : Lodged home passes v)
    (hv : Undisturbed host template mounted v)
    (hall : v.renderAll fuel v.opened = some (.ok done, p)) (herrors : p.errors = [])
    (hhome : PassRecord.Homely home ⟨v, fuel, done.root, p⟩) :
    Lodged home (⟨v, fuel, done.root, p⟩ :: passes) (v.settle v.streams.plans done p).2 := by
  have hstanding := standing_reachable hv.reachable
  have hrest := hstanding.resting
  have hs := hv.sighted hall herrors
  obtain ⟨root, hs', fs, p₁, p₂, former, ha⟩ := hstanding.account hall
  obtain rfl := ha.root_clean herrors hrest
  have hx := ha.housed herrors hrest hstanding.sent hl.owner hhome
  refine ⟨fun h c hc => ?_, fun id e hid => ?_, fun k t h ht hin => ?_⟩
  · rw [roster_settle] at hc
    exact hx.owner h c ((get?_reclaim_close hs.arena).mp hc).1
  · rw [latest_cons]
    by_cases hentry : .entry e ∈ PassRecord.marks ⟨v, fuel, done.root, p⟩
    · rw [if_pos hentry, hx.kept_of_drawn hs hid hentry]
      exact and_congr_right fun _ => ⟨fun hk => ⟨_, rfl, hk⟩, fun ⟨y, hy, hk⟩ =>
        Option.some.inj hy ▸ hk⟩
    · rw [if_neg hentry, hx.kept_of_undrawn hs hid hentry, hl.lives id e hid]
      refine and_congr_right fun hholds => and_iff_right ?_
      exact (hx.entry_of_holds (numbered_reachable hv.reachable) done hholds).resolve_right hentry
  · have hfits := (ha.brought.suits k t (tree?_of_settle ht).2).1
    have hkept {id : String} := @Housed.kept_of_slot home v fuel done p hx hs k h t hfits ht hin id
    rcases ha.tree?_left herrors hrest ht with hlast | ⟨-, hbefore⟩
    · obtain ⟨d, hd, hdk, hresult⟩ := lastDrawn_mem hlast
      obtain ⟨id, hid, hknown⟩ := hx.known none h (mem_marks_of_drawn hd hresult hin)
      exact ⟨_, List.mem_cons_self, ⟨d, hd, hdk, hresult⟩, id, hid, hknown, hkept hid hknown⟩
    · obtain ⟨y, hy, hdrew, id, hid, hknown, hold⟩ := hl.slots k t h hbefore hin
      exact ⟨y, List.mem_cons_of_mem _ hy, hdrew, id, hid, hknown, hkept hid (hx.kept id h hold)⟩

/-! ## Every run -/

/-- **The components of entries are lodged throughout a run.** -/
theorem Homely.lodged (hv : Homely host template home passes v) : Lodged home passes v := by
  induction hv with
  | start =>
      refine lodged_of_empty (resting_ofConfig host.config).arena (fun h => ?_) fun _ => rfl
      simp [ofTemplate, ofConfig, get?]
  | @step passes v v' cmd answer hv hexec hcmd hclean hhome ih =>
      obtain ⟨mounted, hu⟩ := hv.undisturbed
      have hrest := (standing_reachable hu.reachable).resting
      cases effect_of_exec hexec with
      | mount id kind props unsent =>
          have hedit : Edit v.host.kinds (fun _ => True) v.roster
              (v.roster.refer v.host.kinds id kind props none).2 :=
            edit_refer v.roster id kind none fun _ _ => trivial
          refine ih.edit hrest.arena (hrest.arena.edit hedit)
            (.of_edit hrest.arena.spare_empty hedit) (fun h c hc => ?_) unsent
          refine (record_refer hrest.arena.spare_empty hc).imp_right ?_
          rintro ⟨rfl, howner⟩
          exact ⟨Option.isNone_iff_eq_none.mp hcmd, howner⟩
      | unmount => cases hcmd
      | deliver id props unsent =>
          have hedit : Edit v.host.kinds (fun _ => True) v.roster
              (v.roster.deliver v.host.kinds id props).2 :=
            edit_deliver hrest.undo id fun _ _ => trivial
          exact ih.edit hrest.arena (hrest.arena.edit hedit)
            (.of_edit hrest.arena.spare_empty hedit) (fun h c hc => .inl (record_deliver hc)) unsent
      | keyStream name keyOf =>
          exact ih.withStreams (v.streams.holds_keyBy name keyOf) v.unsent
      | changeStream unsent hs => exact ih.withStreams (Streams.holds_change hs) unsent
      | @render fuel result _ hr =>
          rcases render_cases hr with ⟨e, p, hall, rfl, hv'⟩ | ⟨done, p, hall, rfl, rfl⟩
          · have hnew : passesAfter passes v (.render fuel) = passes := by
              simp only [passesAfter, hall]
            rw [hnew, render_error hrest hr]
            exact ih
          · rw [passesAfter_render hall] at hhome ⊢
            have herrors : (v.settle v.streams.plans done p).1.errors = [] := by
              simpa [Answer.isClean] using hclean
            exact ih.pass hu hall herrors (hhome _ List.mem_cons_self)
      | close =>
          have harena := (standing_reachable (hu.reachable.step hexec)).resting.arena
          exact lodged_of_empty harena (get?_unmountEach hrest) fun _ => rfl
      | _ => exact ⟨ih.owner, ih.lives, ih.slots⟩

/-- The passes of a run went well, and referred to every component from its home. -/
theorem Homely.of_mem {x : PassRecord} (hv : Homely host template home passes v)
    (hx : x ∈ passes) : ∃ older done, Homely host template home older x.view ∧
      x.view.renderAll x.fuel x.view.opened = some (.ok done, x.pass) ∧ x.pass.errors = [] ∧
      x.page = done.root ∧ x.Homely home := by
  induction hv with
  | start => cases hx
  | @step passes v v' cmd answer hv hexec hcmd hclean hhome ih =>
      have hnew := hhome x hx
      cases effect_of_exec hexec with
      | @render fuel result _ hr =>
          rcases render_cases hr with ⟨e, p, hall, rfl, hv'⟩ | ⟨done, p, hall, rfl, rfl⟩
          · simp only [passesAfter, hall] at hx
            exact ih hx
          · rw [passesAfter_render hall] at hx
            rcases List.mem_cons.mp hx with rfl | hx
            · have herrors : (v.settle v.streams.plans done p).1.errors = [] := by
                simpa [Answer.isClean] using hclean
              exact ⟨passes, done, hv, hall, herrors, rfl, hnew⟩
            · exact ih hx
      | _ => exact ih hx

/-- A tree that a component had before a pass, or that the pass has drawn for it. -/
def ShownIn (v : View) (fuel : Nat) (k : Handle) (t : Tree) : Prop :=
  v.roster.tree? k = some t ∨ ∃ d ∈ v.drawings fuel, d.handle = k ∧ d.result = .ok t

/-- All that a pass has seen is led to from what was seen before, or from what the pass refers
to. -/
theorem leads_of_seen (hv : Reachable host template v)
    (hall : v.renderAll fuel v.opened = some (.ok done, p)) (herrors : p.errors = []) :
    ∀ k ∈ p.roster.seen, ∃ b, (b ∈ v.roster.seen ∨ v.References fuel done.root b) ∧
      Leads (v.ShownIn fuel) b k := by
  obtain ⟨r, hseen, he⟩ := hv.explained hall herrors
  rw [← hseen]
  refine he.mem_of_seen (fun h hh => ?_) (fun d hd _ t ht h hin => ?_)
    (fun k hk => ⟨k, .inl hk, .self⟩) fun _ _ _ h t _ hleft _ ⟨a, ha, hl⟩ k hin => ?_
  · obtain ⟨⟨h', changed⟩, hin, rfl⟩ := List.mem_map.mp hh
    exact ⟨h', .inr (.inl (Tree.mem_handles_iff.mpr ⟨changed, hin⟩)), .self⟩
  · exact ⟨h, .inr (.inr ⟨d, hd, t, ht, hin⟩), .self⟩
  · exact ⟨a, ha, hl.step (.inl hleft.tree) hin⟩

/-- A pass comes upon a component in a tree from before the pass, by following trees from what it
refers to, or from what was seen since the last pass. -/
def PassRecord.ComesUpon (x : PassRecord) (h : Handle) : Prop :=
  ∃ b k t, (b ∈ x.view.roster.seen ∨ x.view.References x.fuel x.page b) ∧
    Leads (x.view.ShownIn x.fuel) b k ∧ x.view.roster.tree? k = some t ∧ h ∈ t.handles

/-- What a pass spares was seen since the last one, or the pass comes upon it. -/
theorem Homely.comesUpon_of_spares {x : PassRecord} (hv : Homely host template home passes v)
    (hx : x ∈ passes) {id : String} {e : StreamEntry} (hid : home id = some e)
    (hspares : x.Spares (some e) id) : ∃ h, x.view.roster.handle? id = some h ∧
      (h ∈ x.view.roster.seen ∨ x.ComesUpon h) := by
  obtain ⟨older, done, hview, hall, herrors, hpage, hhome⟩ := hv.of_mem hx
  obtain ⟨mounted, hu⟩ := hview.undisturbed
  have hstanding := standing_reachable hu.reachable
  have hrest := hstanding.resting
  obtain ⟨root, hs, fs, p₁, p₂, former, ha⟩ := hstanding.account hall
  obtain rfl := ha.root_clean herrors hrest
  obtain ⟨v, fuel, page, p⟩ := x
  obtain rfl : page = done.root := hpage
  have hhoused := ha.housed herrors hrest hstanding.sent hview.lodged.owner hhome
  obtain ⟨hout, h, hh, hseen⟩ := hspares
  have hnot : ¬v.References fuel done.root h := by
    intro hin
    obtain ⟨owner, hslot⟩ := (hhoused.handles h).mp hin
    have hknown := hhoused.kept id h hh
    obtain rfl : owner = some e := (hhome owner id ⟨h, hslot, hknown⟩).trans hid
    exact hout ⟨h, hslot, hknown⟩
  refine ⟨h, hh, ?_⟩
  obtain ⟨b, hb, hleads⟩ := leads_of_seen hu.reachable hall herrors h hseen
  cases hleads with
  | self => exact .inl (hb.resolve_right hnot)
  | @step k _ t hk ht hin =>
      rcases ht with ht | ⟨d, hd, -, hresult⟩
      · exact .inr ⟨b, k, t, hb, hk, ht, hin⟩
      · exact absurd (.inr ⟨d, hd, t, hresult, hin⟩) hnot

/-- **How long the components of stream entries live.** In a run without failures in which every
component is referred to from its home, a component of an entry is live exactly when the client
holds the entry and the latest pass that rendered it referred to the component there, or spared it.
A pass spares no component but those seen since the pass before, or that it comes upon in trees from
before. And as long as a component is there, so are the components that its tree refers to outside
of entries. -/
theorem live_iff_kept (hv : Homely host template home passes v) :
    (∀ id e, home id = some e → ((∃ h, v.roster.handle? id = some h) ↔
      v.streams.holds e = true ∧ ∃ x, latest passes e = some x ∧
        (x.Refers (some e) id ∨ x.Spares (some e) id))) ∧
    (∀ x ∈ passes, ∀ id e, home id = some e → x.Spares (some e) id →
      ∃ h, x.view.roster.handle? id = some h ∧ (h ∈ x.view.roster.seen ∨ x.ComesUpon h)) ∧
    ∀ k t h, v.roster.tree? k = some t → .slot none h ∈ t.marks →
      ∃ x ∈ passes, x.Drew k t ∧ ∃ id, home id = none ∧
        x.pass.roster.handle? id = some h ∧ v.roster.handle? id = some h :=
  ⟨hv.lodged.lives, fun _ hx _ _ hid hspares => hv.comesUpon_of_spares hx hid hspares,
    hv.lodged.slots⟩

/-! ## A label that its entry gave up -/

/-- Whether every slot of a pass is at home with the component that it points at. -/
def PassRecord.isHomely (home : String → Option StreamEntry) (x : PassRecord) : Bool :=
  x.marks.all fun
    | .slot owner h => x.pass.roster.ids.all fun a => a.2 ≠ h || owner = home a.1
    | _ => true

theorem PassRecord.homely_of_isHomely {x : PassRecord} (hx : x.isHomely home = true) :
    x.Homely home := by
  rintro owner id ⟨h, hin, hid⟩
  have hslot := List.all_eq_true.mp hx _ hin
  have hsame := List.all_eq_true.mp hslot (id, h) (Keyed.mem_of_get? hid)
  simpa using hsame

/-- Carry out commands, as long as components are referred to from their homes and nothing fails. -/
def runHomely (home : String → Option StreamEntry) (passes : List PassRecord) (v : View) :
    List Command → Option (List PassRecord × View)
  | [] => some (passes, v)
  | cmd :: cmds =>
    match v.exec cmd with
    | none => none
    | some (answer, v') =>
      if cmd.isHomely home && (answer.isClean && (passesAfter passes v cmd).all (·.isHomely home))
      then runHomely home (passesAfter passes v cmd) v' cmds
      else none

theorem Homely.run {cmds : List Command} {passes' : List PassRecord}
    (hv : Homely host template home passes v)
    (hrun : runHomely home passes v cmds = some (passes', v')) :
    Homely host template home passes' v' := by
  induction cmds generalizing passes v with
  | nil =>
      obtain ⟨rfl, rfl⟩ := Prod.mk.inj (Option.some.inj hrun)
      exact hv
  | cons cmd cmds ih =>
      unfold runHomely at hrun
      split at hrun
      · cases hrun
      · next answer w hexec =>
          split at hrun
          · next hgood =>
              rw [Bool.and_eq_true, Bool.and_eq_true, List.all_eq_true] at hgood
              obtain ⟨hcmd, hclean, hhome⟩ := hgood
              exact ih (hv.step hexec hcmd hclean fun x hx =>
                PassRecord.homely_of_isHomely (hhome x hx)) hrun
          · cases hrun

/-- What a run comes to, when a test of it succeeds. -/
theorem homely_of_run (host : Host) (template : Template) (home : String → Option StreamEntry)
    (cmds : List Command) (test : List PassRecord → View → Bool)
    (h : (runHomely home [] (ofTemplate host template) cmds).any (fun x => test x.1 x.2) = true) :
    ∃ passes v, Homely host template home passes v ∧ test passes v = true := by
  obtain ⟨⟨passes, v⟩, hrun, htest⟩ := (Option.any_eq_true ..).mp h
  exact ⟨passes, v, Homely.start.run hrun, htest⟩

/-- A list of posts, each of which shows the label if it is open. -/
def openPosts : Template :=
  .hole "<ul>" (.stream "posts" "post" (.hole "<li>"
      (.choice (Reads.ofTexts ["post"])
        (fun s => do
          match (← s.get "post").field? "open" with
          | some (.bool true) => .ok (some 0)
          | _ => .ok none)
        (.more (.hole "" (.component ⟨"label", "label"⟩ (fun _ => .ok "label") fun _ => .ok [])
          (.text "")) .none))
      (.text "</li>")))
    (.text "</ul>")

/-- A box around such a list. -/
def outerHost : Host :=
  ⟨fun key => Kind.ofTemplate (if key = "panel" then openPosts
    else if key = "outer" then
      .hole "<div>" (.component ⟨"panel", "panel"⟩ (fun _ => .ok "panel") fun _ => .ok [])
        (.text "</div>")
    else .text "<i></i>"), {}⟩

/-- A page with such a box. -/
def outerPage : Template :=
  .hole "" (.component ⟨"outer", "outer"⟩ (fun _ => .ok "outer") fun _ => .ok []) (.text "")

/-- The label is at home in the only post. -/
def labelHome (id : String) : Option StreamEntry :=
  if id = "label" then some ⟨"posts", "posts-1"⟩ else none

/-- Put the post into the list, open or not. -/
def putPost (isOpen : Bool) : Command :=
  .changeStream "posts" (.insert (.obj [("id", .str "1"), ("open", .bool isOpen)]) (-1) none false)

/-- The post is sent open. Then it is closed, and the panel is drawn again, but the box is not. -/
def closePost : List Command :=
  [putPost true, .render 4, putPost false, .deliver "panel" [("x", .bool true)], .render 4]

/-- A post that is sent open has its label. -/
theorem putPost_label : ∃ passes v, Homely outerHost outerPage labelHome passes v ∧
    v.roster.handle? "label" = some 2 ∧ v.streams.holds ⟨"posts", "posts-1"⟩ = true ∧
    ∃ x, latest passes ⟨"posts", "posts-1"⟩ = some x ∧
      (x.Refers (some ⟨"posts", "posts-1"⟩) "label" ∨
        x.Spares (some ⟨"posts", "posts-1"⟩) "label") := by
  obtain ⟨passes, v, hv, htest⟩ := homely_of_run outerHost outerPage labelHome (closePost.take 2)
    (fun _ v => decide (v.roster.handle? "label" = some 2)) (by decide +kernel)
  have hid := of_decide_eq_true htest
  exact ⟨passes, v, hv, hid, ((live_iff_kept hv).1 "label" _ rfl).mp ⟨2, hid⟩⟩

/-- The label outlives the rendering that gave it up: the box is as it was, so the pass follows the
tree that the panel had before, and sees the label there. -/
theorem closePost_label : ∃ passes v x, Homely outerHost outerPage labelHome passes v ∧
    v.roster.handle? "label" = some 2 ∧
    latest passes ⟨"posts", "posts-1"⟩ = some x ∧
    ¬x.Refers (some ⟨"posts", "posts-1"⟩) "label" := by
  obtain ⟨passes, v, hv, htest⟩ := homely_of_run outerHost outerPage labelHome closePost
    (fun passes v => decide (v.roster.handle? "label" = some 2) &&
      (latest passes ⟨"posts", "posts-1"⟩).any fun x : PassRecord =>
        !decide (PassRecord.Refers x (some ⟨"posts", "posts-1"⟩) "label"))
    (by decide +kernel)
  simp only [Bool.and_eq_true, decide_eq_true_eq, Option.any_eq_true, Bool.not_eq_true',
    decide_eq_false_iff_not] at htest
  obtain ⟨hid, x, hx, hout⟩ := htest
  exact ⟨passes, v, x, hv, hid, hx, hout⟩

end ViewSync.View
