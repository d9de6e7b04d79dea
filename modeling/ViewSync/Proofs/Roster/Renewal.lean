import Mathlib.Data.List.Flatten
import ViewSync.Proofs.Pass.Filled
import ViewSync.Proofs.Template.Library

/-!
# What a pass renews

While a pass without failures goes on, references hand props to components, and may hand other props
to them later on. So what is in a tree agrees with the components that it refers to as long as no
other reference to them was made: a tree that was drawn in the pass, if its own reference is the
only one, and a tree from before, if there was none. How often a component was drawn is bounded by
how often the trees of other components and the page referred to it.
-/

namespace ViewSync.Roster

open ViewSync.Pass

/-! ## Counting -/

/-- The handles in the tree that was drawn. -/
def Drawing.handles (d : Drawing) : List Handle := (d.result.toOption.map Tree.handles).getD []

theorem mem_drawing_handles {d : Drawing} {h : Handle} :
    h ∈ d.handles ↔ ∃ t, d.result = .ok t ∧ h ∈ t.handles := by
  unfold Drawing.handles
  cases d.result <;> simp [Except.toOption]

/-- How often a component was drawn. -/
def draws (ds : List Drawing) (h : Handle) : Nat := ds.countP (·.handle = h)

/-- How often the page and the drawings of other components referred to a component. -/
def calls (root : Tree) (ds : List Drawing) (h : Handle) : Nat :=
  root.handles.count h + ((ds.filter (·.handle ≠ h)).flatMap Drawing.handles).count h

/-- How often the page and the drawings referred to a component. -/
def uses (root : Tree) (ds : List Drawing) (h : Handle) : Nat :=
  root.handles.count h + (ds.flatMap Drawing.handles).count h

variable {root : Tree} {ds : List Drawing} {h k : Handle}

theorem draws_append (d : Drawing) :
    draws (ds ++ [d]) h = draws ds h + if d.handle = h then 1 else 0 := by
  simp [draws, List.countP_append, List.countP_singleton]

theorem calls_append (d : Drawing) :
    calls root (ds ++ [d]) h =
      calls root ds h + if d.handle = h then 0 else d.handles.count h := by
  unfold calls
  rw [List.filter_append, List.flatMap_append, List.count_append, ← Nat.add_assoc]
  congr 1
  by_cases hd : d.handle = h <;> simp [hd]

theorem uses_append (d : Drawing) :
    uses root (ds ++ [d]) h = uses root ds h + d.handles.count h := by
  simp [uses, List.flatMap_append, Nat.add_assoc]

theorem uses_drawing (root : Tree) (ds : List Drawing) (h : Handle) (tree : Tree)
    (taken : List String) (k : Handle) :
    uses root (ds ++ [⟨h, .ok tree, taken⟩]) k = uses root ds k + tree.handles.count k :=
  uses_append _

theorem calls_le_uses : calls root ds h ≤ uses root ds h := by
  refine Nat.add_le_add_left ?_ _
  exact (List.filter_sublist.flatMap _).count_le h

theorem one_le_uses_of_mem {d : Drawing} (hd : d ∈ ds) (hh : h ∈ d.handles) :
    1 ≤ uses root ds h := by
  have hin : h ∈ ds.flatMap Drawing.handles := List.mem_flatMap.mpr ⟨d, hd, hh⟩
  have hpos := List.count_pos_iff.mpr hin
  unfold uses
  omega

/-! ## Links -/

/-- A component is of a kind that refers to the kind of another one. -/
def Above (l : Library) (r : Roster) (k h : Handle) : Prop :=
  ∃ c d, r.get? k = some c ∧ r.get? h = some d ∧ l.Uses c.kind.name d.kind.name

/-- A reference is kept up: its component holds the props that it handed over. -/
def Meets (r : Roster) (ref : Reference) (h : Handle) : Prop := Named r ref h ∧ HasProps r ref h

/-- A reference is kept up, or there were so many to its component. -/
def Sustained (n : Nat) (root : Tree) (ds : List Drawing) (r : Roster) (ref : Reference)
    (h : Handle) : Prop :=
  Meets r ref h ∨ n ≤ uses root ds h

/-- Components stay, and some of them hold what they held. -/
structure Shift (r : Roster) (hs : List Handle) (r' : Roster) : Prop where
  /-- Ids keep their handles. -/
  ids : ∀ id h, r.handle? id = some h → r'.handle? id = some h
  /-- Records keep their kinds. -/
  kind : ∀ h c, r.get? h = some c → ∃ c', r'.get? h = some c' ∧ c'.kind = c.kind
  /-- Other components hold what they held. -/
  same : ∀ h c, h ∉ hs → r.get? h = some c →
    ∃ c', r'.get? h = some c' ∧ c'.assigns.settled = c.assigns.settled

variable {l : Library} {r r' : Roster} {hs : List Handle} {ref : Reference}

theorem Shift.named (hr : Shift r hs r') (hn : Named r ref h) : Named r' ref h := by
  obtain ⟨hid, c, hc, hname⟩ := hn
  obtain ⟨c', hc', hkind⟩ := hr.kind h c hc
  exact ⟨hr.ids _ h hid, c', hc', hkind ▸ hname⟩

theorem Shift.meets (hr : Shift r hs r') (hh : h ∉ hs) (hm : Meets r ref h) : Meets r' ref h := by
  obtain ⟨hn, c, hc, hholds⟩ := hm
  obtain ⟨c', hc', hsame⟩ := hr.same h c hh hc
  exact ⟨hr.named hn, c', hc', hsame.trans hholds⟩

theorem Shift.above (hr : Shift r hs r') (ha : Above l r k h) : Above l r' k h := by
  obtain ⟨c, d, hc, hd, hu⟩ := ha
  obtain ⟨c', hc', hkind⟩ := hr.kind k c hc
  obtain ⟨d', hd', hkind'⟩ := hr.kind h d hd
  refine ⟨c', d', hc', hd', ?_⟩
  rw [hkind, hkind']
  exact hu

/-! ## The roster between passes -/

/-- Every component is what its template comes to from its assigns, and all references in its tree
are kept up. -/
structure Coherent (l : Library) (host : Host) (r : Roster) : Prop where
  /-- Every kind renders the template that the library has for it. -/
  kinds : ∀ h c, r.get? h = some c →
    host.kinds c.kind.key = Kind.ofTemplate (l.template c.kind.name)
  /-- A record holds nothing but props of its kind. -/
  propped : ∀ h c, r.get? h = some c → c.assigns.Propped (l.names c.kind.name)
  /-- Nothing was written since the last rendering. -/
  settled : ∀ h c, r.get? h = some c → c.assigns.before = []
  /-- Every tree is what its template comes to. -/
  trees : ∀ h c, r.get? h = some c → ∃ tree, c.tree = some tree ∧
    (l.template c.kind.name).Filled host.config.escapeHtml (Meets r) c.assigns tree

/-! ## The roster during a pass -/

/-- What is so after some drawings of a pass: the page and the trees are what their templates come
to, and their references are kept up unless there were others. -/
structure Renewed (l : Library) (host : Host) (t : Template) (a : Assigns) (root : Tree)
    (ds : List Drawing) (r : Roster) : Prop where
  /-- Further references may be made. -/
  «open» : r.Open l.names
  /-- Every kind renders the template that the library has for it. -/
  kinds : ∀ h c, r.get? h = some c →
    host.kinds c.kind.key = Kind.ofTemplate (l.template c.kind.name)
  /-- A component is drawn or queued at most once for each reference to it. -/
  calls : ∀ h, draws ds h + r.queue.count h ≤ calls root ds h
  /-- What a drawing refers to is itself, or of a kind that its own kind refers to. -/
  above : ∀ d ∈ ds, ∀ h ∈ d.handles, h = d.handle ∨ Above l r d.handle h
  /-- A component that was drawn has the tree of one of its drawings. -/
  last : ∀ d ∈ ds, ∃ e ∈ ds, ∃ tree, e.handle = d.handle ∧ e.result = .ok tree ∧
    r.tree? d.handle = some tree
  /-- The page is what its template comes to. -/
  page : t.Filled host.config.escapeHtml (Sustained 2 root ds r) a root
  /-- So is every tree, from what its component held when it was drawn. -/
  trees : ∀ h c tree, r.get? h = some c → c.tree = some tree → ∃ base,
    (c.assigns.before = [] → c.assigns.settled = base.settled) ∧
    (l.template c.kind.name).Filled host.config.escapeHtml
      (Sustained (if h ∈ ds.map Drawing.handle then 2 else 1) root ds r) base tree

variable {host : Host} {t : Template} {a : Assigns} {made : List (Reference × Handle)}

/-- What references have handled only holds other props where they went. -/
theorem Handled.shift (hr : Handled l.names r made r') : Shift r (made.map Prod.snd) r' where
  ids := hr.ids
  kind h c hc := by
    obtain ⟨c', hc', -, hkind, -⟩ := hr.record h c hc
    exact ⟨c', hc', hkind⟩
  same h c hh hc := ⟨c, (hr.others h hh).trans hc, rfl⟩

/-- **Once the page is rendered**, a tree from before is good if the page refers to none of its
components. -/
theorem Coherent.renewed (hcoh : Coherent l host r) (harena : r'.Arena) (hqueue : r.queue = [])
    (hr : Handled l.names r made r') (hsuits : ∀ e ∈ made, l.Suits host.kinds t e.1)
    (hroot : root.shape = t.shape) (hvalues : t.ValuesOnly)
    (hmade : Made host.config.escapeHtml (Scope.ofAssigns a) t root.fillings made) :
    Renewed l host t a root [] r' := by
  have hhandles : root.handles = made.map Prod.snd := by
    obtain ⟨_, fs⟩ := root
    exact hmade.handles
  have huses (h : Handle) : uses root [] h = (made.map Prod.snd).count h := by
    simp [uses, hhandles]
  refine ⟨hr.open, fun h c' hc' => ?_, fun h => ?_, List.forall_mem_nil _, List.forall_mem_nil _,
    ?_, fun h c' tree hc' htree => ?_⟩
  · cases hc : r.get? h with
    | none =>
        obtain ⟨e, he, hkind⟩ := hr.origin h hc c' hc'
        rw [hkind]
        exact (hsuits e he).kind
    | some c =>
        obtain ⟨d, hd, -, hkind, -⟩ := hr.record h c hc
        obtain rfl := Option.some.inj (hc'.symm.trans hd)
        rw [hkind]
        exact hcoh.kinds h c hc
  · have hcount := (hr.queue h).1
    simp only [hqueue, List.count_nil, Nat.zero_add] at hcount
    simpa [draws, Roster.calls, hhandles] using hcount
  · rw [Template.filled_iff hvalues]
    refine ⟨hroot, t.filledAt_imp _ _ (fun ref h _ hin => ?_) hmade.filled⟩
    rcases hr.given _ hin with ⟨hid, hnone⟩ | ⟨hnamed, hholds | htwo⟩
    · -- no record is away
      obtain ⟨c, hc, -⟩ := (harena.ids_iff _ h).mp hid
      cases hnone.symm.trans hc
    · exact .inl ⟨hnamed, hholds⟩
    · exact .inr (huses h ▸ htwo)
  · cases hc : r.get? h with
    | none =>
        have hnone := (hr.trees h).trans (tree?_of_none hc)
        rw [tree?_of_get? hc', htree] at hnone
        cases hnone
    | some c =>
        obtain ⟨d, hd, -, hkind, hsame, hassigns⟩ := hr.record h c hc
        obtain rfl := Option.some.inj (hc'.symm.trans hd)
        obtain ⟨u, hu, hfilled⟩ := hcoh.trees h c hc
        obtain rfl := Option.some.inj (htree.symm.trans (hsame.trans hu))
        refine ⟨c.assigns, fun hnil => by rw [hassigns hnil], ?_⟩
        rw [hkind]
        refine hfilled.imp fun ref k _ hm => ?_
        by_cases hk : k ∈ made.map Prod.snd
        · right
          rw [huses]
          exact List.count_pos_iff.mpr hk
        · exact .inl (hr.shift.meets hk hm)

/-! ## One drawing -/

variable {page : Template} {p q : Pass} {c : Component} {rs : Refs}
variable {fs : List (String × Stream.Flush)} {tree : Tree}

/-- References may be made while the record of the next component is away. -/
theorem Open.begun (ho : p.roster.Open l.names) (hnext : p.roster.queue.head? = some h)
    (c : Component) : (begun p h c).roster.Open l.names := by
  refine ⟨ho.spare_sorted, fun k hk => ?_, fun id k hk => ?_, ho.stillborn, fun k d hd => ?_,
    fun k d hd hlive hstale => ?_⟩
  · have hempty := ho.spare_empty k hk
    change (p.roster.slots.set h none)[k]? = some none
    by_cases hkh : h = k
    · subst hkh
      exact List.getElem?_set_self (List.getElem?_eq_some_iff.mp hempty).1
    · rw [List.getElem?_set_ne hkh]
      exact hempty
  · change k < (p.roster.slots.set h none).length ∧ _
    rw [List.length_set]
    exact ho.ids id k hk
  · exact ho.propped k d (of_get?_begun hd).2
  · obtain ⟨hne, hd⟩ := of_get?_begun hd
    obtain ⟨queue, hq⟩ := List.head?_eq_some_iff.mp hnext
    rw [queue_begun c hq]
    exact (List.mem_cons.mp (hq ▸ ho.queued k d hd hlive hstale)).resolve_left hne

/-- A component was drawn without a failure, and made these references. -/
structure Drew (l : Library) (host : Host) (p : Pass) (h : Handle) (c : Component) (q : Pass)
    (tree : Tree) (made : List (Reference × Handle)) : Prop where
  /-- Records, ids and handles went together. -/
  arena : p.roster.Arena
  /-- The component was next in the queue. -/
  next : p.roster.queue.head? = some h
  /-- It had a record. -/
  record : p.roster.get? h = some c
  /-- Its kind renders the template that the library has for it. -/
  kind : host.kinds c.kind.key = Kind.ofTemplate (l.template c.kind.name)
  /-- Its record was away while it was rendered. -/
  away : Away q.roster h
  /-- Records, ids and handles go together once it is back. -/
  back : (q.roster.put h c).Arena
  /-- The references were answered. -/
  handled : Handled l.names (begun p h c).roster made q.roster
  /-- They are references that the template makes. -/
  suits : ∀ e ∈ made, l.Suits host.kinds (l.template c.kind.name) e.1
  /-- The tree has the shape of the template. -/
  shape : tree.shape = (l.template c.kind.name).shape
  /-- It is what the template comes to with these references. -/
  filled : (l.template c.kind.name).FilledAt host.config.escapeHtml
    (fun ref h => (ref, h) ∈ made) (Scope.ofAssigns c.assigns) tree.fillings
  /-- It has their handles, in order. -/
  handles : tree.handles = made.map Prod.snd

/-- A drawing without a failure makes the references of its template. -/
theorem exists_drew (hl : l.Regular host page) (hoff : host.tracking false = host)
    (hopen : p.roster.Open l.names) (harena : p.roster.Arena)
    (hkind : host.kinds c.kind.key = Kind.ofTemplate (l.template c.kind.name))
    (hdraw : Draws host p h c rs fs q (.ok tree)) (herrors : q.errors = []) :
    ∃ made, Drew l host p h c q tree made := by
  have hregular := hl.template hkind
  have hplain : (Scope.ofAssigns c.assigns).All Value.Plain :=
    ⟨List.forall_mem_nil _, (hopen.propped h c hdraw.record).plain⟩
  have hfills := fills_template host c.tree
    hregular.free hregular.makes hplain (hl.serves c.kind.name).suits
  have hrun := hdraw.run
  rw [hkind] at hrun
  rw [hoff] at hfills
  replace hfills := hfills (begun p h c)
  change (Pass.template host (Scope.ofAssigns c.assigns) (l.template c.kind.name) c.tree).run
    (begun p h c) = _ at hrun
  rw [hrun] at hfills
  obtain ⟨made, hcalls, hsuits, hshape, hmade⟩ := (hfills herrors).2 tree rfl
  have htemplated : Templated host.kinds := fun key => (hl.kinds key).imp fun _ ht => ht.1
  have hhandled := hcalls.handled htemplated hl.nodup (hopen.begun hdraw.next c) fun e he =>
    (hsuits e he).props
  obtain ⟨haway, hback, -⟩ := hdraw.grows harena
  refine ⟨made, harena, hdraw.next, hdraw.record, hkind, haway, hback, hhandled, hsuits, hshape,
    hmade.filled, ?_⟩
  obtain ⟨_, fs⟩ := tree
  exact hmade.handles

/-- The roster once a component that was drawn is back. -/
def putBack (q : Pass) (h : Handle) (c : Component) (tree : Tree) : Roster :=
  q.roster.put h { c with tree := some tree, assigns := c.assigns.settled }

namespace Drew

variable (hd : Drew l host p h c q tree made)
include hd

theorem get?_putBack (k : Handle) : (putBack q h c tree).get? k =
    if k = h then some { c with tree := some tree, assigns := c.assigns.settled }
    else q.roster.get? k :=
  get?_put (List.getElem?_eq_some_iff.mp hd.away.1).1 _ k

theorem get?_self : (putBack q h c tree).get? h =
    some { c with tree := some tree, assigns := c.assigns.settled } :=
  (hd.get?_putBack h).trans (if_pos rfl)

/-- Another record comes from one that was there, or is new and of a kind that was asked for. -/
theorem record_cases (hk : k ≠ h) {d : Component} (hrec : q.roster.get? k = some d) :
    (∃ d', p.roster.get? k = some d' ∧ d.kind = d'.kind ∧ d.tree = d'.tree ∧
      (d.assigns.before = [] → d.assigns = d'.assigns)) ∨
    (d.tree = none ∧ ∃ e ∈ made, d.kind = e.1.kind) := by
  have hbegun : (begun p h c).roster.get? k = p.roster.get? k := get?_begun_of_ne hk
  cases hd' : (begun p h c).roster.get? k with
  | none =>
      have hout := (hd.handled.trees k).trans (tree?_of_none hd')
      rw [tree?_of_get? hrec] at hout
      exact .inr ⟨hout, hd.handled.origin k hd' d hrec⟩
  | some d' =>
      obtain ⟨d₂, hd₂, -, hkind, htree, hassigns⟩ := hd.handled.record k d' hd'
      obtain rfl := Option.some.inj (hrec.symm.trans hd₂)
      exact .inl ⟨d', hbegun.symm.trans hd', hkind, htree, hassigns⟩

/-- What a drawing leaves of the other components, and of its own. -/
theorem shift : Shift p.roster (made.map Prod.snd) (putBack q h c tree) := by
  refine ⟨hd.handled.ids, fun k d hrec => ?_, fun k d hk hrec => ?_⟩
  · by_cases hkh : k = h
    · subst hkh
      obtain rfl := Option.some.inj (hd.record.symm.trans hrec)
      exact ⟨_, hd.get?_self, rfl⟩
    · obtain ⟨d', hd', -, hkind, -⟩ := hd.handled.record k d ((get?_begun_of_ne hkh).trans hrec)
      exact ⟨d', (hd.get?_putBack k).trans ((if_neg hkh).trans hd'), hkind⟩
  · by_cases hkh : k = h
    · subst hkh
      obtain rfl := Option.some.inj (hd.record.symm.trans hrec)
      exact ⟨_, hd.get?_self, rfl⟩
    · have hsame := (hd.handled.others k hk).trans ((get?_begun_of_ne hkh).trans hrec)
      exact ⟨d, (hd.get?_putBack k).trans ((if_neg hkh).trans hsame), rfl⟩

/-- A reference that was made is kept up, unless it is one of many, or of the component to
itself. -/
theorem given {ref : Reference} (hin : (ref, k) ∈ made) :
    k = h ∨ k ≠ h ∧ Named (putBack q h c tree) ref k ∧
      (HasProps (putBack q h c tree) ref k ∨ 2 ≤ (made.map Prod.snd).count k) := by
  rcases hd.handled.given _ hin with ⟨hid, hout⟩ | ⟨⟨hid, d, hrec, hname⟩, hheld⟩
  · left
    obtain ⟨d, hrec, -⟩ := (hd.back.ids_iff ref.id k).mp hid
    rw [get?_put (List.getElem?_eq_some_iff.mp hd.away.1).1] at hrec
    by_contra hne
    rw [if_neg hne] at hrec
    cases hout.symm.trans hrec
  · have hne : k ≠ h := fun heq => by cases (heq ▸ hd.away.get?).symm.trans hrec
    have hsame := (hd.get?_putBack k).trans (if_neg hne)
    refine .inr ⟨hne, ⟨hid, d, hsame.trans hrec, hname⟩, ?_⟩
    rw [HasProps, hsame]
    exact hheld

theorem «open» (ho : p.roster.Open l.names) : (putBack q h c tree).Open l.names := by
  have hr := hd.handled.open
  refine ⟨hr.spare_sorted, fun k hk => ?_, fun id k hk => ?_, hr.stillborn,
    fun k d hrec => ?_, fun k d hrec hlive hstale => ?_⟩
  · change (q.roster.slots.set h _)[k]? = some none
    have hne : h ≠ k := fun heq => hd.away.2 (heq ▸ hk)
    rw [List.getElem?_set_ne hne]
    exact hr.spare_empty k hk
  · change k < (q.roster.slots.set h _).length ∧ _
    rw [List.length_set]
    exact hr.ids id k hk
  · rw [hd.get?_putBack] at hrec
    split at hrec
    · obtain rfl := Option.some.inj hrec
      exact (ho.propped h c hd.record).settled
    · exact hr.propped k d hrec
  · rw [hd.get?_putBack] at hrec
    split at hrec
    · -- it has just been rendered
      obtain rfl := Option.some.inj hrec
      simp [Component.isStale, Assigns.settled, Assigns.anyWritten] at hstale
    · exact hr.queued k d hrec hlive hstale

/-- A component may be queued again as often as others refer to it. -/
theorem count_queue (k : Handle) : q.roster.queue.count k + (if h = k then 1 else 0) ≤
    p.roster.queue.count k + if h = k then 0 else tree.handles.count k := by
  obtain ⟨queue, hq⟩ := List.head?_eq_some_iff.mp hd.next
  have htail : (begun p h c).roster.queue = queue := queue_begun c hq
  obtain ⟨hcount, hout⟩ := hd.handled.queue k
  rw [htail] at hcount hout
  rw [hd.handles, hq, List.count_cons]
  by_cases hk : h = k
  · subst hk
    have hcount := hout hd.away.get?
    simpa using hcount
  · simpa [hk] using hcount

theorem above (hk : k ∈ tree.handles) : k = h ∨ Above l (putBack q h c tree) h k := by
  rw [hd.handles] at hk
  obtain ⟨⟨ref, _⟩, hin, rfl⟩ := List.mem_map.mp hk
  refine (hd.given hin).imp_right ?_
  rintro ⟨-, ⟨-, d, hrec, hname⟩, -⟩
  refine ⟨_, d, hd.get?_self, hrec, ?_⟩
  rw [hname]
  exact (hd.suits _ hin).uses

/-- What was kept up before still is, or there is one more reference. -/
theorem sustained (taken : List String) {n : Nat} {ref : Reference}
    (hone : n ≤ uses root ds k + 1) (hlink : Sustained n root ds p.roster ref k) :
    Sustained n root (ds ++ [⟨h, .ok tree, taken⟩]) (putBack q h c tree) ref k := by
  have huses := uses_drawing root ds h tree taken k
  rcases hlink with hm | hn
  · by_cases hk : k ∈ made.map Prod.snd
    · right
      have hpos := List.count_pos_iff.mpr (hd.handles ▸ hk)
      omega
    · exact .inl (hd.shift.meets hk hm)
  · right
    omega

/-- What draws a component is referred to, so that it is referred to twice if it refers to
itself. -/
theorem filled_self (taken : List String) (hv : (l.template c.kind.name).ValuesOnly)
    (hcalls : draws ds h + p.roster.queue.count h ≤ calls root ds h) :
    (l.template c.kind.name).Filled host.config.escapeHtml
      (Sustained 2 root (ds ++ [⟨h, .ok tree, taken⟩]) (putBack q h c tree)) c.assigns tree := by
  rw [Template.filled_iff hv]
  refine ⟨hd.shape, Template.filledAt_imp _ _ _ (fun ref k _ hin => ?_) hd.filled⟩
  have huses := uses_drawing root ds h tree taken k
  have hk : k ∈ made.map Prod.snd := List.mem_map_of_mem (f := Prod.snd) hin
  have hpos := List.count_pos_iff.mpr hk
  rw [hd.handles] at huses
  rcases hd.given hin with rfl | ⟨-, hnamed, hholds | htwo⟩
  · right
    obtain ⟨queue, hq⟩ := List.head?_eq_some_iff.mp hd.next
    have hcalls := Nat.le_trans hcalls calls_le_uses
    rw [hq, List.count_cons_self] at hcalls
    omega
  · exact .inl ⟨hnamed, hholds⟩
  · right
    omega

end Drew

/-- A tree that was drawn has its handles counted. -/
theorem Renewed.one_le_uses (hren : Renewed l host t a root ds r) {d : Component} {u : Tree}
    (hrec : r.get? k = some d) (hu : d.tree = some u) (hdrawn : k ∈ ds.map Drawing.handle)
    (hh : h ∈ u.handles) : 1 ≤ uses root ds h := by
  obtain ⟨e, he, rfl⟩ := List.mem_map.mp hdrawn
  obtain ⟨e', he', tree, -, hresult, htree⟩ := hren.last e he
  obtain rfl := Option.some.inj (hu.symm.trans ((tree?_of_get? hrec).symm.trans htree))
  refine one_le_uses_of_mem he' ?_
  rw [Drawing.handles, hresult]
  exact hh

/-- **One more drawing.** -/
theorem Renewed.draw (hren : Renewed l host t a root ds p.roster)
    (hd : Drew l host p h c q tree made) (hv : (l.template c.kind.name).ValuesOnly)
    (taken : List String) :
    Renewed l host t a root (ds ++ [⟨h, .ok tree, taken⟩]) (putBack q h c tree) := by
  refine ⟨hd.open hren.open, fun k d hrec => ?_, fun k => ?_, ?_, ?_, ?_, fun k d u hrec hu => ?_⟩
  · rw [hd.get?_putBack] at hrec
    split at hrec
    · obtain rfl := Option.some.inj hrec
      exact hd.kind
    · next hne =>
        rcases hd.record_cases hne hrec with ⟨d', hd', hkind, -⟩ | ⟨-, e, he, hkind⟩
        · rw [hkind]
          exact hren.kinds k d' hd'
        · rw [hkind]
          exact (hd.suits e he).kind
  · have hcalls := hren.calls k
    have hcount := hd.count_queue k
    rw [draws_append, calls_append]
    change _ + _ + q.roster.queue.count k ≤ _ + if h = k then 0 else tree.handles.count k
    dsimp only
    omega
  · exact List.forall_mem_append.mpr ⟨fun d hin k hk => (hren.above d hin k hk).imp_right
      hd.shift.above, List.forall_mem_singleton.mpr fun k hk => hd.above hk⟩
  · have hnew : (putBack q h c tree).tree? h = some tree := tree?_of_get? hd.get?_self
    refine List.forall_mem_append.mpr ⟨fun d hin => ?_, List.forall_mem_singleton.mpr ?_⟩
    · by_cases hdh : d.handle = h
      · exact ⟨⟨h, .ok tree, taken⟩, by simp, tree, hdh.symm, rfl, hdh ▸ hnew⟩
      · obtain ⟨e, he, u, hsame, hresult, hu⟩ := hren.last d hin
        refine ⟨e, List.mem_append_left _ he, u, hsame, hresult, ?_⟩
        obtain ⟨b, hb, hbu⟩ := Option.bind_eq_some_iff.mp hu
        have hbegun : (begun p h c).roster.get? d.handle = some b :=
          (get?_begun_of_ne hdh).trans hb
        obtain ⟨b', hb', -, -, htree, -⟩ := hd.handled.record _ b hbegun
        rw [tree?_of_get? ((hd.get?_putBack d.handle).trans ((if_neg hdh).trans hb')), htree]
        exact hbu
    · exact ⟨_, by simp, tree, rfl, rfl, hnew⟩
  · refine hren.page.imp fun ref k hk hlink => hd.sustained taken ?_ hlink
    have hpos := List.count_pos_iff.mpr hk
    unfold uses
    omega
  · rw [hd.get?_putBack] at hrec
    by_cases hk : k = h
    · subst hk
      rw [if_pos rfl] at hrec
      obtain rfl := Option.some.inj hrec
      obtain rfl := Option.some.inj hu
      refine ⟨c.assigns, fun _ => rfl, ?_⟩
      rw [if_pos (by simp)]
      exact hd.filled_self taken hv (hren.calls k)
    · rw [if_neg hk] at hrec
      rcases hd.record_cases hk hrec with ⟨d', hd', hkind, htree, hassigns⟩ | ⟨hnone, -⟩
      · have hu' : d'.tree = some u := htree.symm.trans hu
        obtain ⟨base, hbase, hfilled⟩ := hren.trees k d' u hd' hu'
        have hiff : k ∈ (ds ++ [(⟨h, .ok tree, taken⟩ : Drawing)]).map Drawing.handle ↔
            k ∈ ds.map Drawing.handle := by simp [hk]
        refine ⟨base, fun hnil => ?_, ?_⟩
        · have heq := hassigns hnil
          rw [heq]
          exact hbase (heq ▸ hnil)
        · rw [hkind]
          simp only [hiff]
          refine hfilled.imp fun ref x hx hlink => hd.sustained taken ?_ hlink
          split
          · next hdrawn => exact Nat.succ_le_succ (hren.one_le_uses hd' hu' hdrawn hx)
          · exact Nat.le_add_left _ _
      · cases hnone.symm.trans hu

/-! ## Draining the queue -/

/-- What is skipped in the queue changes nothing. -/
theorem Renewed.skip (hren : Renewed l host t a root ds r) {queue : List Handle}
    (hq : r.queue = h :: queue) (hret : ∀ c, r.get? h = some c → c.retired = true) :
    Renewed l host t a root ds { r with queue } := by
  have ho := hren.open
  refine ⟨⟨ho.spare_sorted, ho.spare_empty, ho.ids, ho.stillborn, ho.propped,
    fun k d hd hlive hstale => ?_⟩, hren.kinds, fun k => ?_, hren.above, hren.last, hren.page,
    hren.trees⟩
  · have hin := ho.queued k d hd hlive hstale
    rw [hq] at hin
    rcases List.mem_cons.mp hin with rfl | hin
    · cases hlive.symm.trans (hret d hd)
    · exact hin
  · have hcalls := hren.calls k
    rw [hq, List.count_cons] at hcalls
    change draws ds k + queue.count k ≤ _
    omega

/-- **While the queue is drained without a failure**, references are kept up unless there were
others. -/
theorem Renewed.drains {S : Shape → Prop} {r₀ : Roster} {p₀ : Pass} {former : FormerTrees}
    (hl : l.Regular host page) (hoff : host.tracking false = host)
    (hS : ∀ key a, S ((host.kinds key).render a).shape) (hp₀ : Redrawn S r₀ none p₀.roster [])
    (hstart : Renewed l host t a root [] p₀.roster) (hd : Drains host p₀ ds p former)
    (herrors : p.errors = []) : Renewed l host t a root ds p.roster := by
  revert herrors
  refine hd.induct (P := fun ds p _ => p.errors = [] → Renewed l host t a root ds p.roster) hS hp₀
    (fun _ => hstart) (fun ih hq hret herrors => (ih herrors).skip hq hret) ?_
  intro ds p former h c rs fs q result ih hredrawn hdraw herrors
  obtain ⟨hbefore, tree, rfl⟩ := hdraw.flawless herrors
  have hren := ih hbefore
  obtain ⟨made, hdrew⟩ :=
    exists_drew hl hoff hren.open hredrawn.arena (hren.kinds h c hdraw.record) hdraw herrors
  exact hren.draw hdrew (hl.template hdrew.kind).values _

end ViewSync.Roster
