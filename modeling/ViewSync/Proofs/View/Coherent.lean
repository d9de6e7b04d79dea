import ViewSync.Proofs.Roster.Single
import ViewSync.Proofs.View.Linked

/-!
# What a render leaves behind

A render without failures, after which no two slots point at one component, leaves a view where the
page and all components are what their templates come to, and where every component holds the props
that the one reference to it hands over. So nothing is left there of what the view was before.
-/

namespace ViewSync

namespace Roster

/-- References may be made where everything is as its template says. -/
theorem Coherent.open {l : Library} {host : Host} {r : Roster} (hr : Coherent l host r)
    (harena : r.Arena) (hborn : r.stillborn = []) : r.Open l.names where
  spare_sorted := harena.spare_sorted
  spare_empty := harena.spare_empty
  ids id h hid := by
    obtain ⟨c, hc, -⟩ := (harena.ids_iff id h).mp hid
    exact ⟨lt_of_get? hc, harena.not_spare hc⟩
  stillborn := hborn
  propped := hr.propped
  queued h c hc _ hstale := by
    obtain ⟨tree, htree, -⟩ := hr.trees h c hc
    rw [Component.isStale, htree, Assigns.anyWritten, hr.settled h c hc] at hstale
    cases hstale

end Roster

namespace View

open Roster

variable {S : Shape → Prop} {host : Host} {template : Template} {v v' : View} {fuel : Nat}
variable {done : Rendering} {p p₁ p₂ : Pass} {root : Tree} {rs : Refs}
variable {fs : List (String × Stream.Flush)} {former : FormerTrees} {l : Library}

/-- Where nothing is stillborn, records stay as they are when the queue is drained. -/
theorem Account.get?_eq (ha : Account S v fuel done p root rs fs p₁ p₂ former)
    (hborn : p₂.roster.stillborn = []) (h : Handle) : p.roster.get? h = p₂.roster.get? h := by
  have hrecord := ha.compared.records h
  obtain ⟨hstillborn, -, hget⟩ := dropStillborn_rest p₂.roster
  have hblank : blanked p₂.roster.dropStillborn.stillborn = id := by
    funext c
    have htree : c.tree.map (Tree.blank []) = c.tree := by
      cases c.tree with
      | none => rfl
      | some t => exact congrArg some (Tree.blank_of_disjoint t fun _ _ => List.not_mem_nil)
    rw [hstillborn, hborn, blanked, htree]
    rfl
  rw [hblank, Option.map_id, id, ite_self, hget, hborn] at hrecord
  exact hrecord

/-- Where the root has been rendered, what it refers to was handed its props. -/
theorem Account.renewed (ha : Account S v fuel done p root rs fs p₁ p₂ former)
    (hl : l.Regular v.host v.root) (hoff : v.host.tracking false = v.host)
    (hrest : v.roster.Resting) (hqueue : v.roster.queue = []) (hcoh : Coherent l v.host v.roster)
    (hplain : v.assigns.All Value.Plain) (herrors : p.errors = []) :
    Renewed l v.host v.root v.assigns root (v.drawings fuel) p₂.roster := by
  have herrors₂ : p₂.errors = [] := ha.errors ▸ herrors
  have herrors₁ : p₁.errors = [] := by
    have hdone := ha.drains.induct (P := fun _ p _ => p.errors = [] → p₁.errors = []) ha.kinds
      ha.redrawn id (fun ih _ _ => ih) fun ih _ hdraw herrors => ih (hdraw.flawless herrors).1
    exact hdone herrors₂
  -- opening a pass only starts its undo record
  have hcoh₀ : Coherent l v.host v.opened.roster :=
    ⟨hcoh.kinds, hcoh.propped, hcoh.settled, hcoh.trees⟩
  have hopen : v.opened.roster.Open l.names :=
    hcoh₀.open (hrest.arena.congr rfl rfl rfl rfl rfl) hrest.stillborn
  have hscope : (Scope.ofAssigns v.assigns).All Value.Plain := ⟨List.forall_mem_nil _, hplain⟩
  have hfills := Pass.fills_template v.host v.sent hl.regular.free hl.regular.makes hscope
    hl.serves_root.suits
  rw [hoff] at hfills
  replace hfills := hfills v.opened
  rw [ha.run] at hfills
  obtain ⟨made, hcalls, hsuits, hshape, hmade⟩ := (hfills herrors₁).2 root rfl
  have htemplated : Templated v.host.kinds := fun key => (hl.kinds key).imp fun _ ht => ht.1
  have hhandled := hcalls.handled htemplated hl.nodup hopen fun e he => (hsuits e he).props
  have hstart := hcoh₀.renewed ha.redrawn.arena hqueue hhandled hsuits hshape hl.regular.values
    hmade
  exact hstart.drains hl hoff ha.kinds ha.redrawn ha.drains herrors₂

/-- What was drawn was referred to, and so it is seen and stays. -/
theorem Account.tree?_drawn (ha : Account S v fuel done p root rs fs p₁ p₂ former)
    (hrest : v.roster.Resting) (hsighted : Sighted v fuel done p) (hunowned : p.roster.Unowned)
    (herrors : p.errors = []) {a : Assigns}
    (hren : Renewed l host template a root (v.drawings fuel) p₂.roster) {d : Drawing}
    (hd : d ∈ v.drawings fuel) (holds : StreamEntry → Bool) :
    (p.roster.closePass holds).2.tell.2.reclaim.tree? d.handle = p₂.roster.tree? d.handle := by
  obtain ⟨hborn, hroot, hdrawn⟩ := ha.sighted_drained hrest herrors
  obtain ⟨e, -, u, -, -, hu⟩ := hren.last d hd
  obtain ⟨c, hc, -⟩ := Option.bind_eq_some_iff.mp hu
  have hseen : d.handle ∈ p.roster.seen := by
    rw [ha.seen_eq hrest herrors]
    have hone : 1 ≤ draws (v.drawings fuel) d.handle :=
      List.one_le_countP_iff.mpr ⟨d, hd, decide_eq_true rfl⟩
    have hcalls := Nat.le_trans (Nat.le_add_right _ _) (hren.calls d.handle)
    rcases Nat.add_pos_iff_pos_or_pos.mp (Nat.le_trans hone hcalls) with hpos | hpos
    · exact hroot _ (List.count_pos_iff.mp hpos)
    · obtain ⟨e, he, hin⟩ := List.mem_flatMap.mp (List.count_pos_iff.mp hpos)
      obtain ⟨t, ht, hall⟩ := hdrawn e (List.mem_filter.mp he).1
      rw [Drawing.handles, ht] at hin
      exact hall _ hin
  have hold := ha.get?_eq hborn d.handle
  have hc' := hold.trans hc
  have howner := hunowned.owner_eq hc'
  have hkept : p.roster.leaves holds _ = false := leaves_of_seen hsighted.arena hc' hseen
    fun e he => by cases howner.symm.trans he
  refine (kept_of_stays hsighted.arena hc' (hsighted.live hc') hkept).2.2.trans ?_
  rw [tree?, hold, ← tree?]

/-- Slots point at what they are. -/
theorem pointsAt_of_mem {tree : Tree} (hsent : v.sent = some tree) {h : Handle}
    (hin : h ∈ pointed tree v.roster) : v.PointsAt h := by
  rcases List.mem_append.mp hin with hin | hin
  · exact .inl ⟨tree, hsent, hin⟩
  · obtain ⟨k, -, hk⟩ := List.mem_flatMap.mp hin
    obtain ⟨t, ht, hin⟩ := mem_pointedBy.mp hk
    exact .inr ⟨k, t, ht, hin⟩

/-- **A render makes a view coherent.** -/
theorem Undisturbed.coherent (hl : l.Regular host template) (hoff : host.tracking false = host)
    (hv : Undisturbed host template [] v) (hqueue : v.roster.queue = [])
    (hcoh : Coherent l host v.roster) (hplain : v.assigns.All Value.Plain) {outcome : Outcome}
    (hr : v.render fuel = some (.ok outcome, v')) (hclean : outcome.errors = []) {tree : Tree}
    (hsent : v'.sent = some tree) (hsingle : (pointed tree v'.roster).Nodup) :
    v'.roster.queue = [] ∧ Coherent l host v'.roster ∧
      template.Filled host.config.escapeHtml (Meets v'.roster) v.assigns tree := by
  obtain rfl := hv.reachable.host_eq
  obtain rfl := hv.reachable.root_eq
  have hfree : StreamFree v.host v.root := ⟨hl.regular.free, hl.streamFree⟩
  have hv' := hv.render hr hclean
  have hrest := resting_reachable hv.reachable
  obtain ⟨hstanding, hunowned⟩ := unowned_reachable hfree hv.reachable
  obtain ⟨done, p, hall, rfl, rfl⟩ := render_ok hr
  obtain ⟨root, rs, fs, p₁, p₂, former, ha⟩ := hstanding.account hall
  have harena := arena_renderAll hrest hall
  obtain ⟨hborn, -⟩ := ha.sighted_drained hrest hclean
  obtain rfl : root = tree := by
    rw [← Option.some.inj hsent, ha.root_eq, hborn]
    exact (Tree.blank_of_disjoint root fun _ _ => List.not_mem_nil).symm
  have hren := ha.renewed hl hoff hrest hqueue hcoh hplain hclean
  have hstays := fun d (hd : d ∈ v.drawings fuel) =>
    ha.tree?_drawn hrest (hv.sighted hall hclean) (unowned_renderAll hstanding hunowned hall) hclean
      hren hd (v.settle v.streams.plans done p).2.streams.holds
  have hsub (h : Handle) (c : Component)
      (hc : (v.settle v.streams.plans done p).2.roster.get? h = some c) :
      p₂.roster.get? h = some c ∧ c.retired = false := by
    obtain ⟨hc, hlive, -⟩ := get?_reclaim_tell_of_retires (retires_closePass p.roster _)
      (harena.closePass _).arena hc
    exact ⟨(ha.get?_eq hborn h).symm.trans hc, hlive⟩
  refine ⟨?_, hren.coherent hsingle hstays hl.acyclic ha.drained hsub fun ref h hin hnamed => ?_⟩
  · refine queue_reclaim_close ?_
    rw [ha.compared.queue, (dropStillborn_rest p₂.roster).2.1, ha.drained]
  · obtain ⟨hid, d, hd, hname⟩ := hnamed
    obtain ⟨hid, c, hc⟩ := hv'.handle?_of_pointsAt hfree (pointsAt_of_mem hsent hin)
      ha.redrawn₂.arena (fun c hc => (hsub h c hc).1) hid
    obtain rfl := Option.some.inj (hd.symm.trans (hsub h c hc).1)
    exact ⟨hid, d, hc, hname⟩

end View

end ViewSync
