import ViewSync.Proofs.Roster.Calm
import ViewSync.Proofs.Roster.Closing
import ViewSync.Proofs.View.Dangling
import ViewSync.Proofs.View.Delivery

/-!
# Views that have nothing to do

Between passes a view counts what is done to it. While it counts nothing, the page is what rendering
it again would make of it, and nothing waits for the client. Rendering again then says nothing of
the page, of components or of events. It may still have something to do: a component that was
mounted from outside is seen by one pass only, and the pass after that takes it out, unless the page
or a component in a stream entry has come to refer to it. Such a component is not counted.
-/

namespace ViewSync

/-! ## Streams without a queue -/

namespace Streams

/-- Nothing is waiting in the stream of a name. -/
def Dry (s : Streams) (name : String) : Prop := (s.get? name).any Stream.isWaiting = false

/-- Keying a stream queues nothing. -/
theorem dry_keyBy (s : Streams) (other : String) (keyOf : Value → Value) :
    (s.keyBy other keyOf).Dry = s.Dry := by
  funext name
  refine congrArg (· = false) ?_
  unfold Streams.keyBy
  split
  · by_cases hname : name = other
    · rw [hname, get?_modify_self]
      cases s.get? other <;> rfl
    · rw [get?_modify_of_ne s _ hname]
  · rw [Streams.get?, Streams.get?, Keyed.get?_append]
    cases Keyed.get? s.all name with
    | some t => rfl
    | none => by_cases hname : other = name <;> simp [Keyed.get?, hname, Stream.isWaiting]

theorem holds_congr {s s' : Streams} {e : StreamEntry}
    (h : (s'.held? e.stream).getD [] = (s.held? e.stream).getD []) : s'.holds e = s.holds e := by
  have hany (o : Option (List String)) :
      (o.any fun keys => keys.contains e.key) = (o.getD []).contains e.key := by
    cases o <;> rfl
  rw [holds, holds, hany, hany, h]

theorem holds_keyBy (s : Streams) (name : String) (keyOf : Value → Value) (e : StreamEntry) :
    (s.keyBy name keyOf).holds e = s.holds e :=
  holds_congr (getD_held?_keyBy s name keyOf e.stream)

theorem holds_change {s s' : Streams} {name : String} {c : Stream.Change}
    (h : s.change name c = .ok s') (e : StreamEntry) : s'.holds e = s.holds e :=
  holds_congr (getD_held?_change h e.stream)

end Streams

/-! ## Rosters that have nothing to do -/

namespace Roster

variable {kinds : Kinds} {holds : StreamEntry → Bool} {r : Roster}

/-- Two rosters alike in what a pass begins with: what is queued, seen and retired, and which stream
entries components are in. -/
structure Alike (r r' : Roster) : Prop where
  /-- The queue is the same. -/
  queue : r'.queue = r.queue
  /-- The same is seen. -/
  seen : r'.seen = r.seen
  /-- The same handles are retired. -/
  retired : r'.retired = r.retired
  /-- Components are in the same entries. -/
  owner : ∀ h c', r'.get? h = some c' → ∃ c, r.get? h = some c ∧ c'.owner = c.owner

namespace Alike

theorem refl (r : Roster) : Alike r r := ⟨rfl, rfl, rfl, fun _ c hc => ⟨c, hc, rfl⟩⟩

/-- Assigns do not matter. -/
theorem put {h : Handle} {c c' : Component} (hc : r.get? h = some c) (howner : c'.owner = c.owner) :
    Alike r (r.put h c') where
  queue := rfl
  seen := rfl
  retired := rfl
  owner k d hd := by
    rw [get?_put (lt_of_get? hc)] at hd
    split at hd
    · next hk =>
        obtain rfl := Option.some.inj hd
        exact ⟨c, hk ▸ hc, howner⟩
    · exact ⟨d, hd, rfl⟩

/-! Calls that fail leave rosters alike. -/

theorem refer {id : String} {kind : KindRef} {props : Fields} {e : Error}
    (hfail : (r.refer kinds id kind props none).1 = .error e) :
    Alike r (r.refer kinds id kind props none).2 := by
  have hspec := refer_spec kinds r id kind props none
  generalize r.refer kinds id kind props none = x at hspec hfail
  obtain ⟨result, r'⟩ := x
  obtain rfl : result = .error e := hfail
  cases hspec with
  | refused => exact .refl _
  | @failed h c _ _ _ hc _ =>
      have hput : Alike (r.keepState c) (r.handOver kinds h c props none) := .put hc rfl
      exact ⟨hput.queue, hput.seen, hput.retired, hput.owner⟩

theorem unmount {id : String} {e : Error} (hfail : (r.unmount id).1 = .error e) :
    Alike r (r.unmount id).2 := by
  rw [unmount_snd]
  unfold Roster.unmount at hfail
  unfold retire at hfail ⊢
  cases hid : r.handle? id with
  | none => exact .refl r
  | some h =>
      rw [hid] at hfail
      cases hfail

theorem deliver {id : String} {props : Fields} {e : Error}
    (hfail : (r.deliver kinds id props).1 = .error e) : Alike r (r.deliver kinds id props).2 := by
  unfold Roster.deliver at hfail ⊢
  cases hid : r.handle? id with
  | none => exact .refl r
  | some h =>
      rw [hid] at hfail
      dsimp only at hfail ⊢
      cases hc : r.get? h with
      | none => exact .refl r
      | some c =>
          rw [hc] at hfail
          dsimp only at hfail ⊢
          cases hfailure : ((kinds c.kind.key).update props c.assigns).2 with
          | some e' => exact .put hc rfl
          | none =>
              rw [hfailure] at hfail
              cases hfail

end Alike

/-- Nothing is queued, seen or retired, and the client holds all stream entries with components. -/
structure Quiet (holds : StreamEntry → Bool) (r : Roster) : Prop where
  /-- Nothing is queued. -/
  queue : r.queue = []
  /-- Nothing is seen. -/
  seen : r.seen = []
  /-- Nothing is retired. -/
  retired : r.retired = []
  /-- The client holds every entry with a component in it. -/
  held : ∀ h c e, r.get? h = some c → c.owner = some e → holds e = true

theorem Quiet.alike {r' : Roster} (hr : r.Quiet holds) (h : Alike r r') : r'.Quiet holds where
  queue := h.queue.trans hr.queue
  seen := h.seen.trans hr.seen
  retired := h.retired.trans hr.retired
  held k c' e hc' howner := by
    obtain ⟨c, hc, hsame⟩ := h.owner k c' hc'
    exact hr.held k c e hc (hsame ▸ howner)

/-- Once a pass is closed and the client told, a roster is quiet if nothing is queued. -/
theorem quiet_close (hr : r.Arena) (hqueue : r.queue = []) :
    (r.closePass holds).2.tell.2.reclaim.Quiet holds where
  queue := queue_reclaim_close hqueue
  seen := seen_reclaim_tell _
  retired := rfl
  held h c e hc howner := by
    obtain ⟨hold, hlive, hstays⟩ := get?_reclaim_tell_of_retires (retires_closePass r holds)
      (hr.closePass holds).arena hc
    have hnot : r.leaves holds c = false :=
      eq_false_of_ne_true fun hleaves => hstays (gone_of_leaves hr hold hlive hleaves)
    unfold leaves at hnot
    rw [howner] at hnot
    simp only [isLost, Bool.or_eq_false_iff, Bool.not_eq_false'] at hnot
    exact hnot.1

/-- A stream that has nothing left to flush has nothing left when the queue is drained. -/
theorem Drains.dry {S : Shape → Prop} {host : Host} {p₀ p : Pass} {ds : List Drawing}
    {former : FormerTrees} {r₀ : Roster} (hS : ∀ key a, S ((host.kinds key).render a).shape)
    (hp₀ : Redrawn S r₀ none p₀.roster []) (hd : Drains host p₀ ds p former) {name : String}
    (h : p₀.flushes.get? name = none) : p.flushes.get? name = none := by
  refine hd.induct (P := fun _ p _ => p.flushes.get? name = none) hS hp₀ h
    (fun ih _ _ => ih) ?_
  intro ds p former k c rs fs q result ih _ hdraw
  rw [(settle_rest q k c former result).1]
  exact hdraw.course.keeps (Pass.closed_dry host.kinds name) ih

end Roster

namespace View

open Roster

variable {S : Shape → Prop} {v w : View} {tree : Tree} {fuel : Nat}

/-! ## While nothing is counted -/

/-- The page is what rendering it again makes of it, and nothing else waits for the client. -/
structure Idle (v : View) (tree : Tree) : Prop where
  /-- The page was sent. -/
  sent : v.sent = some tree
  /-- It has the shape of the root. -/
  shape : tree.shape = v.root.shape
  /-- Rendering the root changes none of its fillings. -/
  still : v.root.StillAt v.host v.streams.Dry true (Scope.ofAssigns v.assigns) tree.fillings
  /-- No assign was written since. -/
  before : v.assigns.before = []
  /-- No event waits. -/
  events : v.events = []
  /-- No component waits. -/
  quiet : v.roster.Quiet v.streams.holds

/-- A stream is dry after a pass that has left nothing of it to flush. -/
theorem dry_settle (hnum : v.streams.Numbered) (done : Rendering) {p : Pass} {name : String}
    (hnone : p.flushes.get? name = none) :
    (v.settle v.streams.plans done p).2.streams.Dry name := by
  unfold Streams.Dry
  rw [streams_settle hnum, Keyed.has, hnone]
  cases hs : v.streams.get? name with
  | none => rfl
  | some s =>
      cases hwait : s.isWaiting with
      | true =>
          rw [Streams.get?_plans hnum.names hs hwait]
          exact Stream.isWaiting_adopt s _
      | false =>
          cases Keyed.get? v.streams.plans name with
          | none => exact hwait
          | some plan => exact Stream.isWaiting_adopt s _

/-- **A pass that goes well leaves a view idle.** -/
theorem idle_render (hs : Standing S v) (hnum : v.streams.Numbered) (hroot : v.root.ValuesOnly)
    {outcome : Outcome} (hr : v.render fuel = some (.ok outcome, w)) : ∃ tree, w.Idle tree := by
  obtain ⟨done, p, hall, -, rfl⟩ := render_ok hr
  obtain ⟨root, handles, fs, p₁, p₂, former, ha⟩ := hs.account hall
  have hstill : v.root.StillAt v.host (v.settle v.streams.plans done p).2.streams.Dry true
      (Scope.ofAssigns v.assigns).settled root.fillings := by
    have hdries : Pass.Dries (v.settle v.streams.plans done p).2.streams.Dry
        (Pass.template v.host (Scope.ofAssigns v.assigns) v.root v.sent) _ :=
      Pass.still_template hroot (Scope.ofAssigns v.assigns) v.sent
    replace hdries := (hdries v.opened).2
    rw [ha.run] at hdries
    refine hdries root rfl fun name hname => dry_settle hnum done ?_
    rw [ha.flushes]
    exact ha.drains.dry ha.kinds ha.redrawn hname
  refine ⟨done.root, rfl, ?_, ?_, rfl, rfl, quiet_close (arena_renderAll hs.resting hall) ?_⟩
  · rw [ha.root_eq, Tree.shape_blank]
    exact ha.shape
  · rw [ha.root_eq, Tree.fillings_blank]
    exact v.root.stillAt_blank true _ _ hstill
  · rw [ha.compared.queue, (dropStillborn_rest p₂.roster).2.1]
    exact ha.drained

/-- Nothing is counted if there is a page, no change was made and nothing is queued. -/
theorem isStale_eq_false :
    v.isStale = false ↔ v.sent ≠ none ∧ v.unsent.any = false ∧ v.roster.queue = [] := by
  simp [isStale, isBusy, and_assoc, Option.ne_none_iff_isSome]

/-- An operation on the components is counted, unless it fails. -/
theorem idle_withRoster {α : Type} {x : Except Error α × Roster}
    (hidle : v.isStale = false → ∃ tree, v.Idle tree)
    (hfail : ∀ e, x.1 = .error e → Alike v.roster x.2)
    (hstale : (v.withRoster x).2.isStale = false) : ∃ tree, (v.withRoster x).2.Idle tree := by
  obtain ⟨result, r⟩ := x
  obtain ⟨hsent, hunsent, hqueue⟩ := isStale_eq_false.mp hstale
  cases result with
  | ok a => exact absurd hunsent (by simp [View.withRoster, Concerns.any])
  | error e =>
      have halike := hfail e rfl
      obtain ⟨tree, hv⟩ :=
        hidle (isStale_eq_false.mpr ⟨hsent, hunsent, halike.queue.symm.trans hqueue⟩)
      exact ⟨tree, hv.sent, hv.shape, hv.still, hv.before, hv.events, hv.quiet.alike halike⟩

/-- **A view that counts nothing is idle.** -/
theorem idle_reachable {host : Host} {root : Template} (hv : Reachable host root v)
    (hroot : root.ValuesOnly) (hstale : v.isStale = false) : ∃ tree, v.Idle tree := by
  induction hv with
  | start => cases hstale
  | @step v v' cmd answer hv hexec hidle =>
      cases cmd with
      | write w =>
          obtain ⟨-, rfl⟩ := Prod.mk.inj (Option.some.inj hexec)
          exact absurd (isStale_eq_false.mp hstale).2.1
            (by simp [writeAssigns, openAssigns, Concerns.any])
      | mount id kind props =>
          obtain ⟨-, rfl⟩ := Prod.mk.inj (Option.some.inj hexec)
          refine idle_withRoster hidle (fun e he => ?_) hstale
          change (v.roster.refer v.host.kinds id kind props none).1.map Prod.fst = .error e at he
          cases hfail : (v.roster.refer v.host.kinds id kind props none).1 with
          | error e' => exact .refer hfail
          | ok a =>
              rw [hfail] at he
              cases he
      | unmount id =>
          obtain ⟨-, rfl⟩ := Prod.mk.inj (Option.some.inj hexec)
          exact idle_withRoster hidle (fun e he => .unmount he) hstale
      | deliver id props =>
          obtain ⟨-, rfl⟩ := Prod.mk.inj (Option.some.inj hexec)
          exact idle_withRoster hidle (fun e he => .deliver he) hstale
      | keyStream name keyOf =>
          obtain ⟨-, rfl⟩ := Prod.mk.inj (Option.some.inj hexec)
          obtain ⟨tree, hv⟩ := hidle hstale
          refine ⟨tree, hv.sent, hv.shape, ?_, hv.before, hv.events, ?_⟩
          · rw [show (v.keyStream name keyOf).streams.Dry = v.streams.Dry from
              v.streams.dry_keyBy name keyOf]
            exact hv.still
          · have hholds : (v.keyStream name keyOf).streams.holds = v.streams.holds :=
              funext (v.streams.holds_keyBy name keyOf)
            exact hholds ▸ hv.quiet
      | changeStream name c =>
          simp only [View.exec, View.changeStream] at hexec
          cases hc : v.streams.change name c with
          | error e =>
              rw [hc] at hexec
              obtain ⟨-, rfl⟩ := Prod.mk.inj (Option.some.inj hexec)
              exact hidle hstale
          | ok streams =>
              rw [hc] at hexec
              obtain ⟨-, rfl⟩ := Prod.mk.inj (Option.some.inj hexec)
              exact absurd (isStale_eq_false.mp hstale).2.1 (by simp [Concerns.any])
      | notify e =>
          obtain ⟨-, rfl⟩ := Prod.mk.inj (Option.some.inj hexec)
          exact absurd (isStale_eq_false.mp hstale).2.1 (by simp [View.notify, Concerns.any])
      | render fuel =>
          obtain ⟨⟨result, w⟩, hr, hw⟩ := Option.map_eq_some_iff.mp hexec
          obtain ⟨-, rfl⟩ := Prod.mk.inj hw
          cases result with
          | error e =>
              obtain rfl := render_error (resting_reachable hv) hr
              exact hidle hstale
          | ok outcome =>
              have hvalues : v.root.ValuesOnly := hv.root_eq ▸ hroot
              exact idle_render (standing_reachable hv) (numbered_reachable hv) hvalues hr
      | close =>
          obtain ⟨-, rfl⟩ := Prod.mk.inj (Option.some.inj hexec)
          exact absurd rfl (isStale_eq_false.mp hstale).1

/-! ## Rendering an idle view -/

/-- A pass begins with the flushes of the streams that have anything waiting, and with no others. -/
theorem flush_opened (hnum : v.streams.Numbered) (name : String) :
    (v.streams.Dry name → v.opened.flushes.get? name = none) ∧
      ∀ plan, (name, plan) ∈ v.streams.plans → v.opened.flushes.has name = true := by
  have hwaits {plan : Stream.Plan} (h : (name, plan) ∈ v.streams.plans) :
      ∃ s, v.streams.get? name = some s ∧ s.isWaiting = true := by
    obtain ⟨⟨name', s⟩, hin, heq⟩ := List.mem_map.mp h
    obtain ⟨rfl, -⟩ := Prod.mk.inj heq
    obtain ⟨hin, hwait⟩ := List.mem_filter.mp hin
    exact ⟨s, Keyed.get?_of_mem hnum.names hin, hwait⟩
  refine ⟨fun hdry => ?_, fun plan h => ?_⟩
  · refine Option.eq_none_iff_forall_ne_some.mpr fun f hf => ?_
    obtain ⟨⟨name', plan⟩, hin, heq⟩ := List.mem_map.mp (Keyed.mem_of_mem_ofList
      (Keyed.mem_of_get? hf))
    obtain ⟨rfl, -⟩ := Prod.mk.inj heq
    obtain ⟨s, hs, hwait⟩ := hwaits hin
    rw [Streams.Dry, hs, Option.any_some, hwait] at hdry
    cases hdry
  · obtain ⟨s, hs, hwait⟩ := hwaits h
    exact (alone_opened hnum hs hwait).2

/-- What a template refers to is at rest in a view. -/
def Rests (v : View) (tree : Tree) : Prop :=
  v.root.RestsAt (Roster.Rests v.host.kinds v.roster) (Scope.ofAssigns v.assigns) tree.fillings

/-- Rendering an idle view goes well, changes nothing of the page and queues nothing. -/
theorem Idle.renderAll (hs : Standing S v) (hnum : v.streams.Numbered) (hv : v.Idle tree)
    (hrests : v.Rests tree) (fuel : Nat) :
    ∃ p, v.renderAll fuel v.opened =
        some (.ok { root := tree.still, patch := .update [], components := [] }, p) ∧
      Looked v.opened.roster v.opened tree.still.handles p := by
  have hfits := hs.sent tree hv.sent
  have hborn : v.opened.roster.stillborn = [] := hs.resting.stillborn
  have hcalm : Calm v.opened.roster v.opened
      (Pass.template v.host (Scope.ofAssigns v.assigns) v.root (some tree)) tree.still
      tree.still.handles :=
    calm_template hborn (fun name hdry => (flush_opened hnum name).1 hdry) hv.before hv.shape hfits
      hv.still hrests
  obtain ⟨q, hrun, hq⟩ := hcalm [] v.opened (.start hv.quiet.seen)
  obtain ⟨seen, undo, hroster⟩ := hq.roster
  have hqueue : q.roster.queue = [] := by
    rw [hroster]
    exact hv.quiet.queue
  have hdrain : drain v.host fuel q [] = some (.ok (), [], q) := by
    unfold drain
    rw [hqueue]
  have hnone : q.roster.stillborn = [] := by
    rw [hroster]
    exact hborn
  have hdrop : q.roster.dropStillborn = q.roster := by
    unfold dropStillborn
    rw [hnone]
    rfl
  refine ⟨{ q with roster := q.roster.keepTrees [] }, ?_, ?_⟩
  · have hblank : (q.roster.keepTrees []).blankStillborn tree.still = tree.still :=
      Tree.blank_of_disjoint _ fun h _ hin => by
        change h ∈ q.roster.stillborn at hin
        rw [hnone] at hin
        cases hin
    have hpatch : Tree.patchFrom .nowhere (some tree) tree.still = .ok (.update []) :=
      Tree.patchTo_still tree hfits.wellFormed
    unfold View.renderAll
    rw [hv.sent, hrun]
    unfold renderQueue
    simp only [hdrain, hdrop, patches, hblank, hpatch, Except.map]
  · refine ⟨⟨seen, (q.roster.keepTrees []).undo, ?_⟩, hq.seen, hq.flushes, hq.errors⟩
    exact congrArg (fun r : Roster => { r with undo := (q.roster.keepTrees []).undo }) hroster

/-- The page or a stream entry that the client holds has a component in it. -/
def Anchored (v : View) (h : Handle) : Prop :=
  (∃ t, v.sent = some t ∧ h ∈ t.still.handles) ∨
    ∃ c, v.roster.get? h = some c ∧ c.owner ≠ none

/-- Neither the page nor a component in a stream entry leads to a component, which is in no entry
itself. -/
def Expires (v : View) (h : Handle) : Prop :=
  ∃ c, v.roster.get? h = some c ∧ c.owner = none ∧
    ∀ b, v.Anchored b → ¬Leads (v.roster.tree? · = some ·) b h

section Looked

variable {p : Pass} (hrest : v.roster.Resting) (hv : v.Idle tree)
variable (hp : Looked v.opened.roster v.opened tree.still.handles p)
include hrest hv hp

theorem Idle.looked : p.roster.Arena ∧ p.roster.retired = [] ∧ p.roster.drawn = [] := by
  obtain ⟨seen, undo, hroster⟩ := hp.roster
  rw [hroster]
  exact ⟨hrest.arena.congr rfl rfl rfl rfl rfl, hv.quiet.retired, hrest.drawn⟩

/-- The client holds the entries of components, and none was drawn, so that no component is lost. -/
theorem Idle.isLost {k : Handle} {c : Component} {e : StreamEntry} (hc : p.roster.get? k = some c)
    (howner : c.owner = some e) : p.roster.isLost v.streams.holds c e = false := by
  obtain ⟨-, -, hdrawn⟩ := hv.looked hrest hp
  have hheld := hv.quiet.held k c e (hp.get?_eq k ▸ hc) howner
  simp [Roster.isLost, hheld, hdrawn]

/-- What is seen in the end is what the page and the stream entries lead to. -/
theorem Idle.mem_seenAtClose (h : Handle) : h ∈ p.roster.seenAtClose v.streams.holds ↔
    ∃ b, v.Anchored b ∧ Leads (v.roster.tree? · = some ·) b h := by
  obtain ⟨harena, hretired, -⟩ := hv.looked hrest hp
  have howned (b : Handle) : b ∈ (p.roster.ownedRecords v.streams.holds).2.map Component.handle ↔
      ∃ c, v.roster.get? b = some c ∧ c.owner ≠ none := by
    simp only [ownedRecords, List.partition_eq_filter_filter, List.mem_map, List.mem_filter,
      mem_liveRecords]
    constructor
    · rintro ⟨c, ⟨⟨⟨⟨k, hc⟩, -⟩, howner⟩, -⟩, rfl⟩
      rw [harena.handle_eq k c hc]
      exact ⟨c, hp.get?_eq k ▸ hc, Option.isSome_iff_ne_none.mp howner⟩
    · rintro ⟨c, hc, howner⟩
      obtain ⟨e, he⟩ := Option.ne_none_iff_exists'.mp howner
      have hc : p.roster.get? b = some c := (hp.get?_eq b).trans hc
      have hlive := (harena.not_retired_iff hc).mp (hretired ▸ List.not_mem_nil)
      refine ⟨c, ⟨⟨⟨⟨b, hc⟩, hlive⟩, ?_⟩, ?_⟩, harena.handle_eq b c hc⟩
      · rw [he]
        rfl
      · simp [he, hv.isLost hrest hp hc he]
  refine (mem_followAll hp.closed h).trans ?_
  rw [hp.seen, hp.tree?_eq]
  change (∃ b ∈ tree.still.handles, Leads (v.roster.tree? · = some ·) b h) ∨
    (∃ b ∈ _, Leads (v.roster.tree? · = some ·) b h) ↔ _
  simp only [howned, Anchored, hv.sent, Option.some.injEq, exists_eq_left', or_and_right,
    exists_or]

/-- **What is taken out once an idle view was rendered again is what expires.** -/
theorem Idle.mem_gone (h : Handle) :
    h ∈ (p.roster.closePass v.streams.holds).2.tell.1 ↔ v.Expires h := by
  obtain ⟨harena, hretired, -⟩ := hv.looked hrest hp
  have hseen := hv.mem_seenAtClose hrest hp h
  have hleaves {c : Component} (hc : p.roster.get? h = some c) :
      p.roster.leaves v.streams.holds c = true ↔
        c.owner = none ∧ h ∉ p.roster.seenAtClose v.streams.holds := by
    have hh := harena.handle_eq h c hc
    unfold leaves
    split
    · next e howner => simp [howner, hv.isLost hrest hp hc howner]
    · next howner => simp [howner, hh]
  constructor
  · intro hgone
    obtain ⟨c, hc, -, hleave⟩ := leaves_of_gone harena hgone (hretired ▸ List.not_mem_nil)
    obtain ⟨howner, hout⟩ := (hleaves hc).mp hleave
    exact ⟨c, hp.get?_eq h ▸ hc, howner, fun b hb hl => hout (hseen.mpr ⟨b, hb, hl⟩)⟩
  · rintro ⟨c, hc, howner, hnone⟩
    have hc : p.roster.get? h = some c := (hp.get?_eq h).trans hc
    have hlive := (harena.not_retired_iff hc).mp (hretired ▸ List.not_mem_nil)
    refine gone_of_leaves harena hc hlive ((hleaves hc).mpr ⟨howner, fun hin => ?_⟩)
    obtain ⟨b, hb, hl⟩ := hseen.mp hin
    exact hnone b hb hl

end Looked

/-- A pass that takes no flush leaves the streams. -/
theorem streams_settle_of_flushes (hnum : v.streams.Numbered) (done : Rendering) {p : Pass}
    (hflushes : p.flushes = v.opened.flushes) :
    (v.settle v.streams.plans done p).2.streams = v.streams := by
  have hnone : (v.streams.plans.filter fun e => !p.flushes.has e.1) = [] := by
    rw [List.filter_eq_nil_iff]
    rintro ⟨name, plan⟩ hin
    rw [hflushes, (flush_opened hnum name).2 plan hin]
    exact Bool.false_ne_true
  change v.streams.adopt ((v.streams.plans.filter fun e => !p.flushes.has e.1).map _) = _
  rw [hnone]
  rfl

/-- **Rendering a view that counts nothing only takes components out.** If what the page refers to
is at rest, the pass goes well, has no failure to report, and says nothing of the page, of
components and of events; the components that are gone then are those that expire. -/
theorem render_of_not_stale {host : Host} {root : Template} (hv : Reachable host root v)
    (hroot : root.ValuesOnly) (hstale : v.isStale = false) (hsent : v.sent = some tree)
    (hrests : v.Rests tree) (fuel : Nat) :
    ∃ outcome w, v.render fuel = some (.ok outcome, w) ∧ outcome.errors = [] ∧
      outcome.message.root.isEmpty = true ∧ outcome.message.components = [] ∧
      outcome.message.events = [] ∧ (∀ h, h ∈ outcome.message.gone ↔ v.Expires h) ∧
      (outcome.message.isEmpty = true ↔ ∀ h, ¬v.Expires h) ∧ w.sent = some tree.still := by
  obtain ⟨tree', hidle⟩ := idle_reachable hv hroot hstale
  obtain rfl := Option.some.inj (hsent.symm.trans hidle.sent)
  have hrest := resting_reachable hv
  have hnum := numbered_reachable hv
  obtain ⟨p, hall, hp⟩ := hidle.renderAll (standing_reachable hv) hnum hrests fuel
  generalize hdone : Rendering.mk tree.still (.update []) [] = done at hall
  have hgone (h : Handle) :
      h ∈ (v.settle v.streams.plans done p).1.message.gone ↔ v.Expires h := by
    change h ∈ (p.roster.closePass
      (v.settle v.streams.plans done p).2.streams.holds).2.tell.1 ↔ v.Expires h
    rw [streams_settle_of_flushes hnum done hp.flushes]
    exact hidle.mem_gone hrest hp h
  refine ⟨_, _, render_of_renderAll hall, hp.errors, ?_⟩
  generalize hmessage : (v.settle v.streams.plans done p).1.message = m at hgone
  have hroot : m.root.isEmpty = true := by
    rw [← hmessage, ← hdone]
    rfl
  have hcomponents : m.components = [] := by
    rw [← hmessage, ← hdone]
    rfl
  have hevents : m.events = [] := hmessage ▸ hidle.events
  refine ⟨hroot, hcomponents, hevents, hgone, ?_, ?_⟩
  · have hempty : m.isEmpty = true ↔ m.gone = [] := by
      simp [Message.isEmpty, hroot, hcomponents, hevents]
    rw [hempty, List.eq_nil_iff_forall_not_mem]
    exact forall_congr' fun h => not_congr (hgone h)
  · rw [← hdone]
    rfl

/-- Another component is mounted next to a panel, and all of it sent. -/
def hosted : List Command := [mountOther, .render 3]

/-- Sending it again takes the other component out. -/
theorem hosted_render : ∃ v tree, Reachable panelHost panelPage v ∧ panelPage.ValuesOnly ∧
    v.isStale = false ∧ v.sent = some tree ∧ v.Rests tree ∧ v.Expires 0 ∧
    ∃ outcome w, v.render 3 = some (.ok outcome, w) ∧ outcome.errors = [] ∧
      outcome.message.root.isEmpty = true ∧ outcome.message.components = [] ∧
      outcome.message.events = [] ∧ (∀ h, h ∈ outcome.message.gone ↔ v.Expires h) ∧
      (outcome.message.isEmpty = true ↔ ∀ h, ¬v.Expires h) ∧ w.sent = some tree.still := by
  have hgood : ((ofTemplate panelHost panelPage).run hosted).any (fun x =>
      !x.2.isStale &&
      ((x.2.sent.any fun t => decide (t.shape = panelPage.shape ∧ t.handles = [1])) &&
      ((x.2.roster.handle? "panel" == some 1 &&
        (x.2.roster.get? 1).any fun c => c.kind.name == "panel" && !c.isStale) &&
      (x.2.render 3).any fun y => y.1.toOption.any fun o =>
        decide (0 ∈ o.message.gone)))) = true := by
    decide +kernel
  obtain ⟨⟨answers, v⟩, hrun, hv⟩ := (Option.any_eq_true ..).mp hgood
  simp only [Bool.and_eq_true, Option.any_eq_true, Bool.not_eq_true', beq_iff_eq,
    decide_eq_true_eq] at hv
  obtain ⟨hstale, ⟨tree, hsent, hshape, hhandles⟩, ⟨hpanel, c, hc, hkind, hrested⟩, ⟨result, w⟩, hr,
    outcome, hresult, hgone⟩ := hv
  have hreach : Reachable panelHost panelPage v := Reachable.start.run hrun
  have hvalues : panelPage.ValuesOnly := ⟨⟨fun _ => rfl, fun _ => rfl⟩, trivial⟩
  have hrests : v.Rests tree := by
    have hfits : tree.Fits := (standing_reachable hreach).sent tree hsent
    obtain ⟨shape, fs⟩ := tree
    obtain rfl : shape = panelPage.shape := hshape
    obtain ⟨changed, rfl⟩ : ∃ changed, fs = [.component 1 changed] := by
      cases fs with
      | nil => exact False.elim hfits
      | cons f fs =>
          obtain ⟨hf, rfl⟩ : HoleShape.Fits (.component "panel") f ∧ fs = [] := hfits
          cases f with
          | component h changed =>
              obtain rfl : h = 1 := List.singleton_inj.mp hhandles
              exact ⟨changed, rfl⟩
          | text s => cases hhandles
          | _ => exact absurd hf (by simp [HoleShape.Fits])
    rw [Rests, hreach.root_eq, hreach.host_eq]
    exact ⟨⟨"panel", [], 1, changed, rfl, rfl, rfl, c, hpanel, hc, hkind, rfl, hrested⟩, trivial⟩
  have hall := render_of_not_stale hreach hvalues hstale hsent hrests 3
  refine ⟨v, tree, hreach, hvalues, hstale, hsent, hrests, ?_, hall⟩
  obtain ⟨outcome', w', hr', -, -, -, -, hexpires, -⟩ := hall
  obtain ⟨rfl, rfl⟩ := Prod.mk.inj (Option.some.inj (hr.symm.trans hr'))
  obtain rfl := Option.some.inj hresult
  exact (hexpires 0).mp hgone

/-- A view that greets whoever comes, with cards for guests. -/
def lobby : View := ofTemplate ⟨fun _ => Kind.ofTemplate (.text "<p></p>"), {}⟩ (.text "Hello")

/-- **A pass may have something to do where nothing is counted.** A card is mounted and sent;
nothing is done to the view after that, and the next pass takes the card out. -/
theorem lobby_mounted_once : ∃ answers v outcome w,
    lobby.run [.mount "chris" ⟨"card", "card"⟩ [], .render 1] = some (answers, v) ∧
    v.isStale = false ∧ v.render 0 = some (.ok outcome, w) ∧ outcome.message.gone = [0] ∧
    outcome.message.isEmpty = false := by
  have hgood : (lobby.run [.mount "chris" ⟨"card", "card"⟩ [], .render 1]).any (fun x =>
      !x.2.isStale && (x.2.render 0).any fun y => y.1.toOption.any fun o =>
        decide (o.message.gone = [0]) && !o.message.isEmpty) = true := by
    decide +kernel
  obtain ⟨⟨answers, v⟩, hrun, hv⟩ := (Option.any_eq_true ..).mp hgood
  simp only [Bool.and_eq_true, Option.any_eq_true, Bool.not_eq_true', decide_eq_true_eq] at hv
  obtain ⟨hstale, ⟨result, w⟩, hr, outcome, hresult, hgone, hsaid⟩ := hv
  cases result with
  | error e => cases hresult
  | ok o =>
      obtain rfl := Option.some.inj hresult
      exact ⟨answers, v, o, w, hrun, hstale, hr, hgone, hsaid⟩

end View

end ViewSync
