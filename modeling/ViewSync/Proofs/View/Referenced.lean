import ViewSync.Proofs.Roster.Provenance
import ViewSync.Proofs.View.Smooth

/-!
# What is left is referred to

In a view without streams, a pass of an undisturbed run leaves no component that nothing leads to.
Each is led to from the new page, from a component that was mounted since the last pass, or from a
tree that was drawn for a component in the queue. The way leads through the trees that components
have after the pass and through those that the pass has drawn: a tree counts as a reference even if
the component is drawn once more, or is itself gone at the end, and what it refers to stays until
the next pass.

A component may also stay because of a tree from before the pass that was followed before its own
component was drawn anew. Which are spared like this, a pass tells by the order of its events.
-/

namespace ViewSync.View

open Roster

variable {host : Host} {root : Template} {mounted : List Handle} {v v' : View}

/-! ## Between passes -/

/-- A component leads to another through the trees of a roster. -/
abbrev LeadsIn (r : Roster) : Handle → Handle → Prop := Leads (r.tree? · = some ·)

/-- A component leads to another through trees of components that are seen. -/
abbrev LeadsSeen (r : Roster) : Handle → Handle → Prop :=
  Leads fun h t => h ∈ r.seen ∧ r.tree? h = some t

/-- What was mounted since the last pass is live, and all that is seen is led to from there. -/
structure Rooted (mounted : List Handle) (r : Roster) : Prop where
  /-- What was mounted is live. -/
  live : ∀ b ∈ mounted, r.Lives b
  /-- What is seen is led to from there, through what is seen as well. -/
  seen : ∀ k ∈ r.seen, ∃ b ∈ mounted, LeadsSeen r b k

/-- What is live leads to what is live. -/
theorem Undisturbed.lives_of_leads (hfree : StreamFree host root)
    (hv : Undisturbed host root mounted v) {h k : Handle} (hh : v.roster.Lives h)
    (hl : LeadsIn v.roster h k) : v.roster.Lives k := by
  cases hl with
  | self => exact hh
  | step _ ht hin =>
      obtain ⟨u, hu⟩ := Option.ne_none_iff_exists'.mp
        (hv.tree_of_pointsAt hfree (.inr ⟨_, _, ht, hin⟩))
      obtain ⟨c, hc, -⟩ := Option.bind_eq_some_iff.mp hu
      have harena := (resting_reachable hv.reachable).arena
      exact ⟨c, hc, (harena.not_retired_iff hc).mp (hv.retired ▸ List.not_mem_nil)⟩

/-- Nothing is seen that does not live. -/
theorem Rooted.lives_of_seen (hfree : StreamFree host root)
    (hv : Undisturbed host root mounted v) (hm : Rooted mounted v.roster) {k : Handle}
    (hk : k ∈ v.roster.seen) : v.roster.Lives k := by
  obtain ⟨b, hb, hl⟩ := hm.seen k hk
  exact hv.lives_of_leads hfree (hm.live b hb) (hl.mono fun _ _ ht => ht.2)

/-- Records may grow, and more may be seen that is led to from what is mounted. -/
theorem Rooted.grow {mounted' : List Handle} {r r' : Roster} (hm : Rooted mounted r)
    (hg : Grows r r') (hsub : ∀ b ∈ mounted, b ∈ mounted') (hkept : ∀ k ∈ r.seen, k ∈ r'.seen)
    (hlive : ∀ b ∈ mounted', b ∈ mounted ∨ r'.Lives b)
    (hseen : ∀ k ∈ r'.seen, k ∈ r.seen ∨ ∃ b ∈ mounted', LeadsSeen r' b k) :
    Rooted mounted' r' where
  live b hb := (hlive b hb).elim (fun hold => (hm.live b hold).grow hg) id
  seen k hk := by
    refine (hseen k hk).elim (fun hold => ?_) id
    obtain ⟨b, hb, hl⟩ := hm.seen k hold
    exact ⟨b, hsub b hb, hl.mono fun m t ht => ⟨hkept m ht.1, (hg.tree? m).trans ht.2⟩⟩

/-- With nothing seen, nothing has to be mounted. -/
theorem rooted_of_unseen {r : Roster} (hseen : r.seen = []) : Rooted [] r where
  live := List.forall_mem_nil _
  seen k hk := by
    rw [hseen] at hk
    cases hk

/-- Mounting a component sees that, and what leads on from it. -/
theorem Rooted.mount {r : Roster} (hm : Rooted mounted r) (hr : r.Arena) (kinds : Kinds)
    {id : String} {kind : KindRef} {props : Fields} {h : Handle} {changed : Bool}
    (hok : (r.refer kinds id kind props none).1 = .ok (h, changed)) :
    Rooted (h :: mounted) (r.refer kinds id kind props none).2 := by
  have hedit : Edit kinds (fun _ => True) r (r.refer kinds id kind props none).2 :=
    edit_refer r id kind none fun _ _ => trivial
  have hgrows := Grows.of_edit hr.spare_empty hedit
  have hkept := (mem_seen_refer kinds r id kind props none).1
  refine hm.grow hgrows (fun b hb => List.mem_cons_of_mem h hb) hkept (fun b hb => ?_)
    fun k hk => ?_
  · refine (List.mem_cons.mp hb).symm.imp_right ?_
    rintro rfl
    obtain ⟨c, hc, -, hlive⟩ := ((hr.edit hedit).ids_iff id b).mp (handle?_refer hok)
    exact ⟨c, hc, hlive⟩
  · have hu : Underway none r := hr
    have hsees := sees_refer kinds hu id kind props none
    rw [hok] at hsees
    cases hsees with
    | component hseen _ =>
        refine (hseen k hk).imp_right fun hnew => ⟨h, List.mem_cons_self, ?_⟩
        rcases hnew with rfl | ⟨-, hl⟩
        · exact .self
        · exact hl.mono fun m t ht => ⟨ht.1, (hgrows.tree? m).trans ht.2.2⟩

/-- A component that cannot be mounted is not seen. -/
theorem Rooted.refuse {r : Roster} (hm : Rooted mounted r) (hr : r.Arena) (kinds : Kinds)
    {id : String} {kind : KindRef} {props : Fields} {e : Error}
    (herr : (r.refer kinds id kind props none).1 = .error e) :
    Rooted mounted (r.refer kinds id kind props none).2 := by
  have hedit : Edit kinds (fun _ => True) r (r.refer kinds id kind props none).2 :=
    edit_refer r id kind none fun _ _ => trivial
  have hu : Underway none r := hr
  have hsees := sees_refer kinds hu id kind props none
  rw [herr] at hsees
  cases hsees with
  | nothing hseen _ =>
      exact hm.grow (.of_edit hr.spare_empty hedit) (fun _ hb => hb) (fun _ hk => hseen ▸ hk)
        (fun _ hb => .inl hb) fun _ hk => .inl (hseen ▸ hk)

/-- **All that is seen between passes is led to from what was mounted since the last one.** -/
theorem Undisturbed.rooted (hfree : StreamFree host root)
    (hv : Undisturbed host root mounted v) : Rooted mounted v.roster := by
  induction hv with
  | start => exact rooted_of_unseen rfl
  | @step mounted v v' cmd answer hv hexec hcmd _ ih =>
      have hstanding := standing_reachable hv.reachable
      have hrest := hstanding.resting
      cases effect_of_exec hexec with
      | mount id kind props unsent =>
          cases hresult : (v.roster.refer v.host.kinds id kind props none).1 with
          | error e => exact ih.refuse hrest.arena v.host.kinds hresult
          | ok answer => exact ih.mount hrest.arena v.host.kinds hresult
      | unmount => cases hcmd
      | deliver id props unsent =>
          have hedit : Edit v.host.kinds (fun _ => True) v.roster
              (v.roster.deliver v.host.kinds id props).2 :=
            edit_deliver hrest.undo id fun _ _ => trivial
          have hseen : (v.roster.deliver v.host.kinds id props).2.seen = v.roster.seen :=
            seen_deliver v.roster id props
          exact ih.grow (.of_edit hrest.arena.spare_empty hedit) (fun _ hb => hb)
            (fun _ hk => hseen ▸ hk) (fun _ hb => .inl hb) fun _ hk => .inl (hseen ▸ hk)
      | @render fuel result _ hr =>
          cases result with
          | error e =>
              rw [render_error hrest hr]
              exact ih
          | ok outcome =>
              obtain ⟨done, p, -, -, rfl⟩ := render_ok hr
              exact rooted_of_unseen (seen_reclaim_tell _)
      | close =>
          refine rooted_of_unseen (List.eq_nil_iff_forall_not_mem.mpr fun k hk => ?_)
          have hk := (seen_reclaim_tell v.roster.unmountEach.2) ▸ hk
          obtain ⟨hseen, hout⟩ := mem_seen_retireAll hk
          -- it lives, and all that lives was retired
          obtain ⟨c, hc, hlive⟩ := ih.lives_of_seen hfree hv hseen
          have hid := (hrest.arena.ids_iff c.id k).mpr ⟨c, hc, rfl, hlive⟩
          refine hout c.id (Keyed.mem_keys_iff_has.mpr ?_) hid
          rw [Keyed.has, hid]
          rfl
      | _ => exact ih

/-! ## Passes -/

/-- What happens in a pass, as far as references go: the page refers to components, and then the
queue is drawn. -/
def passEvents (v : View) (fuel : Nat) (page : Tree) : List PassEvent :=
  PassEvent.ofRefs page.refs ++ (v.drawings fuel).flatMap Drawing.events

/-- **What a pass has seen is explained by what happened in it.** -/
theorem Reachable.explained (hv : Reachable host root v) {fuel : Nat} {done : Rendering} {p : Pass}
    (hall : v.renderAll fuel v.opened = some (.ok done, p)) (herrors : p.errors = []) :
    ∃ r, r.seen = p.roster.seen ∧ Explained v.roster (v.passEvents fuel done.root) r := by
  have hstanding := standing_reachable hv
  have hrest := hstanding.resting
  obtain ⟨page, rs, fs, p₁, p₂, former, ha⟩ := hstanding.account hall
  obtain rfl := ha.root_clean herrors hrest
  have hu : Underway none v.opened.roster := hrest.arena.congr rfl rfl rfl rfl rfl
  have hopen : Explained v.roster [] v.opened.roster := explained_start rfl (fun _ => rfl) rfl
  have hroot := Explained.course ha.course hu hrest.stillborn hopen
  obtain ⟨hborn, -⟩ := seen_course ha.course hrest.stillborn
  refine ⟨p₂.roster, (ha.seen_eq hrest herrors).symm, ?_⟩
  rw [passEvents, ha.tells.refs]
  exact ha.drains.explained ha.kinds ha.redrawn hborn hroot (ha.errors ▸ herrors)

/-- What the references of a pass start from: what was mounted before, what the new page points at,
and what the trees point at that were drawn for components in the queue. -/
def Base (v : View) (fuel : Nat) (mounted : List Handle) (page : Tree) (b : Handle) : Prop :=
  b ∈ mounted ∨ b ∈ page.handles ∨
    ∃ d ∈ v.drawings fuel, d.handle ∈ v.roster.queue ∧ ∃ t, d.result = .ok t ∧ b ∈ t.handles

/-- A tree that a component has after a pass, or that the pass has drawn for it. -/
def ShownAfter (v : View) (fuel : Nat) (v' : View) (k : Handle) (t : Tree) : Prop :=
  v'.roster.tree? k = some t ∨ ∃ d ∈ v.drawings fuel, d.handle = k ∧ d.result = .ok t

/-- A component had a tree that refers to another, and whatever a pass has drawn for it does not. -/
structure Drops (v : View) (fuel : Nat) (k j : Handle) : Prop where
  /-- It referred to the other before the pass. -/
  before : ∃ t, v.roster.tree? k = some t ∧ j ∈ t.handles
  /-- The pass has drawn it. -/
  drawn : ∃ d ∈ v.drawings fuel, d.handle = k
  /-- It does not refer to the other any more. -/
  dropped : ∀ d ∈ v.drawings fuel, d.handle = k → j ∉ d.handles

/-- A component that is seen although nothing refers to it: what referred to it does not any more,
but was followed while it still had its tree from before. -/
inductive Spared (v : View) (fuel : Nat) (page : Tree) (j : Handle) : Prop where
  /-- The tree was followed when a component was mounted. -/
  | mounted {k : Handle} : k ∈ v.roster.seen → j ∈ v.roster.seen → v.Drops fuel k j →
      Spared v fuel page j
  /-- The tree was followed in the pass, from a component that was referred to and was not to be
  drawn anew, before anything happened to the component itself. -/
  | followed {earlier : List PassEvent} {b k : Handle} {t : Tree} :
      earlier ++ [.refer b false] <+: v.passEvents fuel page →
      Leads (Untouched v.roster earlier) b k → Untouched v.roster earlier k t →
      v.Drops fuel k j → Spared v fuel page j

/-- A component that is seen in a pass and not drawn has the tree after the pass that it had before
it. -/
theorem Undisturbed.tree?_of_undrawn (hfree : StreamFree host root)
    (hv : Undisturbed host root mounted v) {fuel : Nat} {done : Rendering} {p : Pass}
    (hall : v.renderAll fuel v.opened = some (.ok done, p)) (herrors : p.errors = []) {k : Handle}
    {t : Tree} (hdrawn : ¬∃ d ∈ v.drawings fuel, d.handle = k) (hseen : k ∈ p.roster.seen)
    (ht : v.roster.tree? k = some t) :
    (v.settle v.streams.plans done p).2.roster.tree? k = some t := by
  obtain ⟨hstanding, hunowned⟩ := unowned_reachable hfree hv.reachable
  obtain ⟨page, rs, fs, p₁, p₂, former, ha⟩ := hstanding.account hall
  have hs := hv.sighted hall herrors
  have hlast : lastDrawn (v.drawings fuel) k = none := by
    refine Option.eq_none_iff_forall_not_mem.mpr fun u hu => hdrawn ?_
    obtain ⟨d, hd, heq, -⟩ := lastDrawn_mem hu
    exact ⟨d, hd, heq⟩
  have htree := ha.tree?_clean herrors hstanding.resting k
  rw [hlast, Option.none_or, ht] at htree
  obtain ⟨c, hc, -⟩ := Option.bind_eq_some_iff.mp htree
  have howner := (unowned_renderAll hstanding hunowned hall).owner_eq hc
  refine (kept_of_stays hs.arena hc (hs.live hc) ?_).2.2.trans htree
  exact leaves_of_seen hs.arena hc hseen fun e he => by cases howner.symm.trans he

/-- A component is led to from where the references of a pass start, or from what it spares. -/
def Grounded (v : View) (fuel : Nat) (mounted : List Handle) (page : Tree) (v' : View)
    (k : Handle) : Prop :=
  ∃ b, (v.Base fuel mounted page b ∨ v.Spared fuel page b) ∧ Leads (v.ShownAfter fuel v') b k

/-- A tree from before the pass leads on as it is, or as it was drawn anew, or else the pass spares
what it led to. -/
theorem Grounded.step {fuel : Nat} {page : Tree} {m k : Handle} {t : Tree}
    (hm : v.Grounded fuel mounted page v' m) (ht : v.roster.tree? m = some t)
    (hin : k ∈ t.handles)
    (hstay : (¬∃ d ∈ v.drawings fuel, d.handle = m) → v'.roster.tree? m = some t)
    (hspare : v.Drops fuel m k → v.Spared fuel page k) : v.Grounded fuel mounted page v' k := by
  obtain ⟨b, hb, hl⟩ := hm
  by_cases hdrawn : ∃ d ∈ v.drawings fuel, d.handle = m
  · by_cases hagain : ∃ d ∈ v.drawings fuel, d.handle = m ∧ k ∈ d.handles
    · obtain ⟨d, hd, heq, hin⟩ := hagain
      obtain ⟨u, hu, hin⟩ := mem_drawing_handles.mp hin
      exact ⟨b, hb, hl.step (.inr ⟨d, hd, heq, hu⟩) hin⟩
    · have hdropped (d : Drawing) (hd : d ∈ v.drawings fuel) (heq : d.handle = m) :
          k ∉ d.handles := fun hin => hagain ⟨d, hd, heq, hin⟩
      exact ⟨k, .inr (hspare ⟨⟨t, ht, hin⟩, hdrawn, hdropped⟩), .self⟩
  · exact ⟨b, hb, hl.step (.inl (hstay hdrawn)) hin⟩

/-- All that a pass has seen is led to. -/
theorem Undisturbed.grounded_of_seen (hfree : StreamFree host root)
    (hv : Undisturbed host root mounted v) {fuel : Nat} {done : Rendering} {p : Pass}
    (hall : v.renderAll fuel v.opened = some (.ok done, p)) (herrors : p.errors = []) :
    ∀ k ∈ p.roster.seen,
      v.Grounded fuel mounted done.root (v.settle v.streams.plans done p).2 k := by
  obtain ⟨r, hseen, he⟩ := hv.reachable.explained hall herrors
  rw [← hseen]
  have hstay {m : Handle} {t : Tree} (ht : v.roster.tree? m = some t) (hm : m ∈ r.seen)
      (hdrawn : ¬∃ d ∈ v.drawings fuel, d.handle = m) :
      (v.settle v.streams.plans done p).2.roster.tree? m = some t :=
    hv.tree?_of_undrawn hfree hall herrors hdrawn (hseen ▸ hm) ht
  refine he.mem_of_seen (fun h hh => ?_) ?_ (fun k hk => ?_) ?_
  · obtain ⟨⟨h', changed⟩, hin, rfl⟩ := List.mem_map.mp hh
    exact ⟨h', .inl (.inr (.inl (Tree.mem_handles_iff.mpr ⟨changed, hin⟩))), .self⟩
  · rintro d hd (hwaiting | ⟨b, hb, hl⟩) t ht h hin
    · exact ⟨h, .inl (.inr (.inr ⟨d, hd, hwaiting, t, ht, hin⟩)), .self⟩
    · exact ⟨b, hb, hl.step (.inr ⟨d, hd, rfl, ht⟩) hin⟩
  · obtain ⟨b, hb, hl⟩ := (hv.rooted hfree).seen k hk
    induction hl with
    | self => exact ⟨b, .inl (.inl hb), .self⟩
    | step _ hm hin ih =>
        exact (ih hm.1).step hm.2 hin (hstay hm.2 (he.before _ hm.1)) (.mounted hm.1 hk)
  · intro earlier b hpre h t hl hleft hh hground k hin
    exact hground.step hleft.tree hin (hstay hleft.tree hh) (.followed hpre hl hleft)

/-- **What is live after a pass is referred to, unless the pass spares what leads to it.** It is
reached from the new page, from a component that was mounted since the last pass, or from a tree
that was drawn for a component in the queue, by following slots through trees that components have
after the pass or that the pass has drawn. -/
theorem leads_of_live (hfree : StreamFree host root) (hv : Undisturbed host root mounted v)
    {fuel : Nat} {outcome : Outcome} (hr : v.render fuel = some (.ok outcome, v'))
    (hclean : outcome.errors = []) {page : Tree} (hpage : v'.sent = some page) {id : String}
    {h : Handle} (hid : v'.roster.handle? id = some h)
    (hspared : ¬∃ j, v.Spared fuel page j ∧ Leads (v.ShownAfter fuel v') j h) :
    ∃ b, v.Base fuel mounted page b ∧ Leads (v.ShownAfter fuel v') b h := by
  obtain ⟨done, p, hall, rfl, rfl⟩ := render_ok hr
  obtain rfl : done.root = page := Option.some.inj hpage
  obtain ⟨hstanding, hunowned⟩ := unowned_reachable hfree hv.reachable
  have hs := hv.sighted hall hclean
  obtain ⟨c, hc, hlive, hstays, -⟩ := stays_of_handle? hs.arena hid
  have hseen := seenAtClose_of_stays hs.arena hc hlive hstays
  rw [seenAtClose_of_unowned fun k d hd =>
    (unowned_renderAll hstanding hunowned hall).owner_eq hd] at hseen
  obtain ⟨b, hb | hb, hl⟩ := hv.grounded_of_seen hfree hall hclean h hseen
  · exact ⟨b, hb, hl⟩
  · exact absurd ⟨b, hb, hl⟩ hspared

/-! ## A page that is cleared and furnished -/

/-- A component, and what comes after it. -/
def placed (kind id : String) (props : Fields) (rest : Template) : Template :=
  .hole "" (.component ⟨kind, kind⟩ (fun _ => .ok id) fun _ => .ok props) rest

/-- What is shown once an assign is set. -/
def shownIf (name : String) (body : Template) : Hole :=
  .choice (Reads.ofTexts [name])
    (fun s => .ok (if (s.get name).toOption.any (·.same (.bool true)) then some 0 else none))
    (.more body .none)

/-- A page that shows a panel or not, and a drawer with a desk or not. -/
def drawerPage : Template :=
  .hole "" (shownIf "shown" (placed "panel" "panel" [] (.text "")))
    (.hole "" (shownIf "furnished" (placed "drawer" "drawer" [("open", .bool true)]
      (placed "desk" "desk" [] (.text "")))) (.text ""))

/-- The panel and the drawer show a label when they are open, and the desk shuts the drawer. -/
def furniture (kind : String) : Template :=
  if kind = "panel" then
    .hole "<div>" (shownIf "open" (placed "label" "inner" [] (.text ""))) (.text "</div>")
  else if kind = "drawer" then
    .hole "<div>" (shownIf "open" (placed "label" "lining" [] (.text ""))) (.text "</div>")
  else if kind = "desk" then placed "drawer" "drawer" [("open", .bool false)] (.text "")
  else .text "<i></i>"

def drawerHost : Host := ⟨fun kind => Kind.ofTemplate (furniture kind), {}⟩

theorem streamFree_drawerPage : StreamFree drawerHost drawerPage := by
  refine ⟨⟨⟨⟨trivial, trivial⟩, trivial⟩, ⟨⟨trivial, ⟨trivial, trivial⟩⟩, trivial⟩, trivial⟩,
    fun key a => ?_⟩
  change Shape.StreamFree (furniture key).shape
  unfold furniture
  split
  · exact ⟨⟨⟨trivial, trivial⟩, trivial⟩, trivial⟩
  · split
    · exact ⟨⟨⟨trivial, trivial⟩, trivial⟩, trivial⟩
    · split
      · exact ⟨trivial, trivial⟩
      · exact trivial

/-- The page is sent with a panel. Then it gives the panel up for a drawer and a desk, and the panel
is to show its label. -/
def shutDrawer : List Command :=
  [.write (.set "shown" (.bool true)), .render 8, .write (.set "shown" (.bool false)),
    .write (.set "furnished" (.bool true)), .deliver "panel" [("open", .bool true)]]

/-- What comes of the next pass. It draws the panel and takes it out, and it draws the drawer twice,
first with a label. Both labels stay. -/
structure Furnished (mounted : List Handle) (v v' : View) (page : Tree) : Prop where
  /-- The page that is sent. -/
  sent : v'.sent = some page
  /-- Nothing was mounted by hand. -/
  mounted_eq : mounted = []
  /-- The page shows the drawer and the desk. -/
  page_handles : page.handles = [1, 2]
  /-- The label of the panel is live. -/
  inner : v'.roster.handle? "inner" = some 3
  /-- The label of the drawer is live. -/
  lining : v'.roster.handle? "lining" = some 4
  /-- Nothing was seen before the pass. -/
  unseen : v.roster.seen = []
  /-- The panel was queued before the pass. -/
  queue : v.roster.queue = [0]
  /-- Whatever is referred to is to be drawn. -/
  fresh : ∀ e ∈ v.passEvents 8 page, e = .draw e.handle ∨ e = .refer e.handle true
  /-- Only the panel shows its label in the pass. -/
  drawn : ∀ d ∈ v.drawings 8, (d.handle = 0 → d.handles = [3]) ∧
    (d.handle ∈ [1, 2, 4] → ∀ h ∈ d.handles, h ∈ [1, 2, 4])
  /-- After the pass, no tree refers to a label. -/
  left : ∀ k ∈ [1, 2, 3, 4], ∀ h ∈ v'.roster.pointedBy k, h ∈ [1, 2]

theorem shutDrawer_furnished : ∃ mounted v outcome v' page,
    Undisturbed drawerHost drawerPage mounted v ∧ v.render 8 = some (.ok outcome, v') ∧
    outcome.errors = [] ∧ Furnished mounted v v' page := by
  obtain ⟨mounted, v, outcome, v', hv, hr, hclean, htest⟩ :=
    undisturbed_of_run drawerHost drawerPage shutDrawer 8
      (fun m v _ w => w.sent.any fun page =>
        decide (m = [] ∧ Tree.handles page = [1, 2] ∧ w.roster.handle? "inner" = some 3 ∧
          w.roster.handle? "lining" = some 4 ∧ v.roster.seen = [] ∧ v.roster.queue = [0] ∧
          (∀ e ∈ v.passEvents 8 page, e = .draw e.handle ∨ e = .refer e.handle true) ∧
          (∀ d ∈ v.drawings 8, (d.handle = 0 → d.handles = [3]) ∧
            (d.handle ∈ [1, 2, 4] → ∀ h ∈ d.handles, h ∈ [1, 2, 4])) ∧
          ∀ k ∈ ([1, 2, 3, 4] : List Handle), ∀ h ∈ w.roster.pointedBy k, h ∈ [1, 2]))
      (by decide +kernel)
  obtain ⟨page, hpage, htest⟩ := (Option.any_eq_true ..).mp htest
  obtain ⟨hm, hhandles, hin, hlin, hseen, hqueue, hfresh, hdrawn, hleft⟩ :=
    of_decide_eq_true htest
  exact ⟨mounted, v, outcome, v', page, hv, hr, hclean, hpage, hm, hhandles, hin, hlin, hseen,
    hqueue, hfresh, hdrawn, hleft⟩

namespace Furnished

variable {page : Tree} (hf : Furnished mounted v v' page)
include hf

theorem not_spared (j : Handle) : ¬v.Spared 8 page j := by
  rintro (⟨hk, -, -⟩ | ⟨hpre, -, -, -⟩)
  · rw [hf.unseen] at hk
    cases hk
  · rcases hf.fresh _ (hpre.subset (List.mem_append_right _ List.mem_cons_self)) with heq | heq
    · cases heq
    · cases heq

/-- The references start from the drawer, the desk and the label of the panel. -/
theorem mem_of_base {b : Handle} (hb : v.Base 8 mounted page b) : b ∈ [1, 2, 3] := by
  rcases hb with hb | hb | ⟨d, hd, hqueue, t, ht, hb⟩
  · rw [hf.mounted_eq] at hb
    cases hb
  · rw [hf.page_handles] at hb
    exact List.mem_append_left [3] hb
  · rw [hf.queue] at hqueue
    have hb : b ∈ d.handles := mem_drawing_handles.mpr ⟨t, ht, hb⟩
    rw [(hf.drawn d hd).1 (List.mem_singleton.mp hqueue)] at hb
    exact List.mem_append_right [1, 2] hb

/-- The trees after the pass do not lead to the lining of the drawer. -/
theorem not_leadsIn_lining {b : Handle} (hb : v.Base 8 mounted page b) :
    ¬LeadsIn v'.roster b 4 := by
  intro hl
  have hin := hl.within (P := (· ∈ [1, 2, 3])) (fun k t hk ht h hh => ?_) (hf.mem_of_base hb)
  · simp at hin
  · have hleft := hf.left k (List.mem_append_left [4] hk) h (mem_pointedBy.mpr ⟨t, ht, hh⟩)
    exact List.mem_append_left [3] hleft

/-- Nothing that the page shows leads to the label of the panel. -/
theorem not_leads_inner {b : Handle} (hb : b ∈ mounted ∨ b ∈ page.handles) :
    ¬Leads (v.ShownAfter 8 v') b 3 := by
  intro hl
  have hstart : b ∈ [1, 2, 4] := by
    rw [hf.mounted_eq, hf.page_handles] at hb
    exact List.mem_append_left [4] (hb.resolve_left List.not_mem_nil)
  have hin := hl.within (P := (· ∈ [1, 2, 4])) (fun k t hk ht h hh => ?_) hstart
  · simp at hin
  · rcases ht with ht | ⟨d, hd, rfl, hresult⟩
    · have hsub : ([1, 2, 4] : List Handle) ⊆ [1, 2, 3, 4] := by decide
      exact List.mem_append_left [4] (hf.left k (hsub hk) h (mem_pointedBy.mpr ⟨t, ht, hh⟩))
    · exact (hf.drawn d hd).2 hk h (mem_drawing_handles.mpr ⟨t, hresult, hh⟩)

end Furnished

/-- A tree that was drawn leads to the lining of the drawer. -/
theorem shutDrawer_leads : ∃ mounted v outcome v' page,
    StreamFree drawerHost drawerPage ∧ Undisturbed drawerHost drawerPage mounted v ∧
    v.render 8 = some (.ok outcome, v') ∧ outcome.errors = [] ∧ v'.sent = some page ∧
    v'.roster.handle? "lining" = some 4 ∧
    (¬∃ j, v.Spared 8 page j ∧ Leads (v.ShownAfter 8 v') j 4) ∧
    ∃ b, v.Base 8 mounted page b ∧ Leads (v.ShownAfter 8 v') b 4 := by
  obtain ⟨mounted, v, outcome, v', page, hv, hr, hclean, hf⟩ := shutDrawer_furnished
  have hspared : ¬∃ j, v.Spared 8 page j ∧ Leads (v.ShownAfter 8 v') j 4 :=
    fun ⟨j, hj, _⟩ => hf.not_spared j hj
  exact ⟨mounted, v, outcome, v', page, streamFree_drawerPage, hv, hr, hclean, hf.sent, hf.lining,
    hspared, leads_of_live streamFree_drawerPage hv hr hclean hf.sent hf.lining hspared⟩

/-- Through the trees that components have after the pass, nothing leads to the labels from the page
or from what was mounted. The one would still be out of reach if the trees counted that the pass has
drawn, and the other if the way could start from the tree of the panel. -/
theorem shutDrawer_unreferenced : ∃ mounted v outcome v' page,
    StreamFree drawerHost drawerPage ∧ Undisturbed drawerHost drawerPage mounted v ∧
    v.render 8 = some (.ok outcome, v') ∧ outcome.errors = [] ∧ v'.sent = some page ∧
    v'.roster.handle? "inner" = some 3 ∧ v'.roster.handle? "lining" = some 4 ∧
    (∀ b, b ∈ mounted ∨ b ∈ page.handles → ¬LeadsIn v'.roster b 3 ∧ ¬LeadsIn v'.roster b 4) ∧
    (∀ b, b ∈ mounted ∨ b ∈ page.handles → ¬Leads (v.ShownAfter 8 v') b 3) ∧
    ∀ b, v.Base 8 mounted page b → ¬LeadsIn v'.roster b 4 := by
  obtain ⟨mounted, v, outcome, v', page, hv, hr, hclean, hf⟩ := shutDrawer_furnished
  refine ⟨mounted, v, outcome, v', page, streamFree_drawerPage, hv, hr, hclean, hf.sent, hf.inner,
    hf.lining, fun b hb => ⟨fun hl => ?_, fun hl => ?_⟩, fun b hb => hf.not_leads_inner hb,
    fun b hb => hf.not_leadsIn_lining hb⟩
  · exact hf.not_leads_inner hb (hl.mono fun _ _ ht => .inl ht)
  · exact hf.not_leadsIn_lining (hb.imp_right .inl) hl

end ViewSync.View
