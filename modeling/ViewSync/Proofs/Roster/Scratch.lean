import ViewSync.Proofs.Roster.Nesting
import ViewSync.Proofs.Roster.Orderly

/-!
# Drawing from scratch

A roster *copies* a coherent one while it is filled by references that are kept up there: every
component in it has the id of one there, is of its kind and holds the same assigns. So no reference
fails, none changes a component that is there already, and none queues one that was drawn. The
components of the other roster are drawn once at most, and then the queue is empty.
-/

namespace ViewSync.Roster

open ViewSync.Pass

variable {l : Library} {host : Host} {page t : Template} {w r r' : Roster} {h k : Handle}
variable {ref : Reference}

/-- Everything is as it is in another roster, for the same ids. -/
structure Copies (l : Library) (host : Host) (w r : Roster) : Prop where
  /-- Further references may be made. -/
  «open» : r.Open l.names
  /-- The ids are in order. -/
  sorted : r.ids.Sorted
  /-- The capacity is the same. -/
  capacity : r.capacity = w.capacity
  /-- Every kind renders the template that the library has for it. -/
  kinds : ∀ h c, r.get? h = some c →
    host.kinds c.kind.key = Kind.ofTemplate (l.template c.kind.name)
  /-- A record is found under its id. -/
  listed : ∀ h c, r.get? h = some c → r.handle? c.id = some h
  /-- An id has a record in the other roster, of the same kind and with the same assigns. -/
  ids : ∀ id h, r.handle? id = some h → ∃ k d, w.handle? id = some k ∧ w.get? k = some d ∧
    ∀ c, r.get? h = some c →
      d.kind.name = c.kind.name ∧ d.assigns.settled = c.assigns.settled
  /-- Nothing is queued that was drawn. -/
  waiting : ∀ h ∈ r.queue, r.get? h ≠ none ∧ r.tree? h = none
  /-- A component that was drawn has not been written to since. -/
  drawn : ∀ h c, r.get? h = some c → c.tree ≠ none → c.assigns.before = []
  /-- Every tree is what its template comes to, with components of the ids that are referred to. -/
  trees : ∀ h c tree, r.get? h = some c → c.tree = some tree →
    (l.template c.kind.name).Filled host.config.escapeHtml
      (fun ref k => r.handle? ref.id = some k) c.assigns tree

/-- The assigns of a component are those that its counterpart was handed. -/
theorem Copies.twin (hr : Copies l host w r) (hm : Meets w ref k)
    (hid : r.handle? ref.id = some h) {c : Component} (hc : r.get? h = some c) :
    c.kind.name = ref.kind.name ∧ c.assigns.settled = Assigns.ofProps ref.props := by
  obtain ⟨⟨hk, d, hd, hname⟩, b, hb, hholds⟩ := hm
  obtain rfl := Option.some.inj (hd.symm.trans hb)
  obtain ⟨k', d', hk', hd', hsame⟩ := hr.ids ref.id h hid
  obtain rfl := Option.some.inj (hk.symm.trans hk')
  obtain rfl := Option.some.inj (hd.symm.trans hd')
  obtain ⟨hkind, hassigns⟩ := hsame c hc
  exact ⟨hkind.symm.trans hname, hassigns.symm.trans hholds⟩

/-! ## References -/

/-- There is room for a component that has a counterpart. -/
theorem Copies.size_lt (hr : Copies l host w r) {id : String} (hid : w.handle? id = some k)
    (hnone : r.handle? id = none) : r.size < w.size := by
  have hout : id ∉ r.ids.map Prod.fst := by
    rw [Keyed.mem_keys_iff_has, Keyed.has]
    change ¬(r.handle? id).isSome = true
    rw [hnone]
    exact Bool.false_ne_true
  have hnd : (id :: r.ids.map Prod.fst).Nodup :=
    List.nodup_cons.mpr ⟨hout, Keyed.nodup_keys hr.sorted⟩
  have hsub : id :: r.ids.map Prod.fst ⊆ w.ids.map Prod.fst := by
    refine List.forall_mem_cons.mpr ⟨Keyed.mem_keys_iff_has.mpr ?_, fun i hi => ?_⟩
    · exact Option.isSome_iff_exists.mpr ⟨k, hid⟩
    · obtain ⟨h, hh⟩ := Option.isSome_iff_exists.mp (Keyed.mem_keys_iff_has.mp hi)
      obtain ⟨k, d, hk, -⟩ := hr.ids i h hh
      exact Keyed.mem_keys_iff_has.mpr (Option.isSome_iff_exists.mpr ⟨k, hk⟩)
  have hlength := (List.subperm_of_subset hnd hsub).length_le
  simp only [List.length_cons, List.length_map] at hlength
  exact hlength

/-- **A reference that is kept up over there leaves a copy.** -/
theorem Copies.answers (hr : Copies l host w r) (hnd : ∀ kind, (l.names kind).Nodup)
    (hsuits : l.Suits host.kinds t ref) (hm : Meets w ref k) (ha : Answers r ref h r') :
    Copies l host w r' := by
  have hopen := ha.open hr.open hnd hsuits.props
  cases ha with
  | inside hid hnone =>
      exact ⟨hopen, hr.sorted, hr.capacity, hr.kinds, hr.listed, hr.ids, hr.waiting, hr.drawn,
        hr.trees⟩
  | @live h c queue seen undo hid hc hname hqueue hstale =>
      -- the component holds the props already
      have hheld : handed c ref.props = c := by
        have hpropped := hr.open.propped h c hc
        rw [hname] at hpropped
        rw [handed, hpropped.merge_same hsuits.props (hnd _) (hr.twin hm hid hc).2]
      have hput : r.put h (handed c ref.props) = r := by rw [hheld, put_self hc]
      rw [hput] at hopen ⊢
      refine ⟨hopen, hr.sorted, hr.capacity, hr.kinds, hr.listed, hr.ids, fun x hx => ?_, hr.drawn,
        hr.trees⟩
      rcases hqueue with rfl | ⟨rfl, hstale'⟩
      · exact hr.waiting x hx
      · rcases List.mem_append.mp hx with hx | hx
        · exact hr.waiting x hx
        · obtain rfl := List.mem_singleton.mp hx
          refine ⟨fun hnone => (by cases hnone.symm.trans hc), (tree?_of_get? hc).trans ?_⟩
          by_contra hdrawn
          rw [hheld, Component.isStale, Assigns.anyWritten, hr.drawn x c hc hdrawn] at hstale'
          rw [Option.isNone_eq_false_iff.mpr (Option.isSome_iff_ne_none.mpr hdrawn)] at hstale'
          cases hstale'
  | created queue seen hid hqueue _ =>
      obtain ⟨⟨hk, d, hd, hname⟩, b, hb, hholds⟩ := hm
      obtain rfl := Option.some.inj (hd.symm.trans hb)
      have hget (x : Handle) : ({ r.create ref.id ref.kind (Assigns.empty.merge ref.props).1 none
          with queue, seen } : Roster).get? x = _ :=
        get?_create hr.open.spare_empty ref.id ref.kind _ none x
      have hnew := get?_takeHandle hr.open.spare_empty
      have hids (id : String) : ({ r.create ref.id ref.kind (Assigns.empty.merge ref.props).1 none
          with queue, seen } : Roster).handle? id = _ :=
        handle?_create r ref.id ref.kind _ none id
      have hold {id : String} {x : Handle} (hx : r.handle? id = some x) : id ≠ ref.id := by
        rintro rfl
        cases hid.symm.trans hx
      refine ⟨hopen, ?_, ?_, fun x c hc => ?_, fun x c hc => ?_, fun id x hx => ?_, fun x hx => ?_,
        fun x c hc htree => ?_, fun x c tree hc htree => ?_⟩
      · rw [create_rest]
        exact Keyed.sorted_insert hr.sorted ref.id _
      · rw [create_rest]
        exact hr.capacity
      · rw [hget] at hc
        split at hc
        · obtain rfl := Option.some.inj hc
          exact hsuits.kind
        · exact hr.kinds x c hc
      · rw [hget] at hc
        split at hc
        · next heq =>
            obtain rfl := Option.some.inj hc
            rw [hids, if_pos rfl, heq]
        · have hx := hr.listed x c hc
          rw [hids, if_neg (hold hx)]
          exact hx
      · rw [hids] at hx
        split at hx
        · next heq =>
            obtain rfl := Option.some.inj hx
            refine ⟨k, d, heq ▸ hk, hd, fun c hc => ?_⟩
            rw [hget, if_pos rfl] at hc
            obtain rfl := Option.some.inj hc
            exact ⟨hname, hholds⟩
        · obtain ⟨k', d', hk', hd', hsame⟩ := hr.ids id x hx
          refine ⟨k', d', hk', hd', fun c hc => hsame c ?_⟩
          rwa [hget, if_neg (hr.open.ne_takeHandle hx)] at hc
      · rw [tree?, hget]
        by_cases hnewest : x = r.takeHandle.1
        · rw [if_pos hnewest]
          exact ⟨Option.some_ne_none _, rfl⟩
        · rw [if_neg hnewest]
          refine hr.waiting x ?_
          change x ∈ queue at hx
          rcases hqueue with rfl | rfl
          · exact hx
          · exact (List.mem_append.mp hx).resolve_right fun hin =>
              hnewest (List.mem_singleton.mp hin)
      · rw [hget] at hc
        split at hc
        · obtain rfl := Option.some.inj hc
          exact absurd rfl htree
        · exact hr.drawn x c hc htree
      · rw [hget] at hc
        split at hc
        · obtain rfl := Option.some.inj hc
          cases htree
        · refine (hr.trees x c tree hc htree).imp fun ref' y _ hy => ?_
          rw [hids, if_neg (hold hy)]
          exact hy

/-- **References that are kept up over there go well.** -/
theorem Copies.welcome (hl : l.Regular host page) (hroom : ∀ n, w.capacity = some n → w.size ≤ n)
    (t : Template) : Welcome host.kinds (Copies l host w) fun ref k =>
      l.Suits host.kinds t ref ∧ Meets w ref k := by
  rintro r ref k hr ⟨hsuits, hm⟩
  have htemplated : Templated host.kinds := fun key => (hl.kinds key).imp fun _ ht => ht.1
  obtain ⟨h, changed, r', hok⟩ := exists_refer ref htemplated hr.open.stillborn
    (fun h c hid hc => (hr.twin hm hid hc).1) fun hnone n hn =>
      Nat.lt_of_lt_of_le (hr.size_lt hm.1.1 hnone) (hroom n (hr.capacity ▸ hn))
  exact ⟨h, changed, r', hok,
    hr.answers hl.nodup hsuits hm (answers_refer htemplated hr.open.stillborn hok)⟩

/-! ## One drawing -/

variable {p q : Pass} {c : Component} {tree : Tree} {made : List (Reference × Handle)}

/-- It is a copy while the record of the next component is away. -/
theorem Copies.begun (hr : Copies l host w p.roster) (hnext : p.roster.queue.head? = some h)
    (hnodup : p.roster.queue.Nodup) (c : Component) : Copies l host w (begun p h c).roster := by
  obtain ⟨queue, hq⟩ := List.head?_eq_some_iff.mp hnext
  have hof {x : Handle} {d : Component} (hd : (Roster.begun p h c).roster.get? x = some d) :
      p.roster.get? x = some d := (of_get?_begun hd).2
  refine ⟨hr.open.begun hnext c, hr.sorted, hr.capacity, fun x d hd => hr.kinds x d (hof hd),
    fun x d hd => hr.listed x d (hof hd), fun id x hx => ?_, fun x hx => ?_,
    fun x d hd => hr.drawn x d (hof hd), fun x d tree hd => hr.trees x d tree (hof hd)⟩
  · obtain ⟨k, d, hk, hd, hsame⟩ := hr.ids id x hx
    exact ⟨k, d, hk, hd, fun c hc => hsame c (hof hc)⟩
  · change x ∈ p.roster.queue.tail at hx
    rw [hq] at hx hnodup
    have hne : x ≠ h := by
      rintro rfl
      exact (List.nodup_cons.mp hnodup).1 hx
    rw [get?_begun_of_ne hne, tree?_begun_of_ne hne]
    exact hr.waiting x (hq ▸ List.mem_cons_of_mem _ hx)

/-- **One more drawing makes a copy of a copy.** -/
theorem Copies.putBack (hr : Copies l host w p.roster) (hq : Copies l host w q.roster)
    (hd : Drew l host p h c q tree made) (hv : (l.template c.kind.name).ValuesOnly) :
    Copies l host w (putBack q h c tree) := by
  have hid : q.roster.handle? c.id = some h := hd.handled.ids _ _ (hr.listed h c hd.record)
  refine ⟨hd.open hr.open, hq.sorted, hq.capacity, fun x d hx => ?_, fun x d hx => ?_,
    fun id x hx => ?_, fun x hx => ?_, fun x d hx htree => ?_, fun x d u hx hu => ?_⟩
  · rw [hd.get?_putBack] at hx
    split at hx
    · obtain rfl := Option.some.inj hx
      exact hd.kind
    · exact hq.kinds x d hx
  · rw [hd.get?_putBack] at hx
    split at hx
    · next heq =>
        obtain rfl := Option.some.inj hx
        exact heq ▸ hid
    · exact hq.listed x d hx
  · by_cases hxh : x = h
    · subst hxh
      -- only its own id leads to it
      obtain ⟨b, hb, rfl, -⟩ := (hd.back.ids_iff id x).mp hx
      rw [get?_put (List.getElem?_eq_some_iff.mp hd.away.1).1, if_pos rfl] at hb
      obtain rfl := Option.some.inj hb
      obtain ⟨k, b, hk, hb, hsame⟩ := hr.ids c.id x (hr.listed x c hd.record)
      refine ⟨k, b, hk, hb, fun d hx => ?_⟩
      obtain rfl := Option.some.inj (hd.get?_self.symm.trans hx)
      exact hsame c hd.record
    · obtain ⟨k, b, hk, hb, hsame⟩ := hq.ids id x hx
      refine ⟨k, b, hk, hb, fun d hx => hsame d ?_⟩
      rwa [hd.get?_putBack, if_neg hxh] at hx
  · obtain ⟨hsome, hnone⟩ := hq.waiting x hx
    have hne : x ≠ h := fun heq => hsome (heq ▸ hd.away.get?)
    rw [tree?, hd.get?_putBack, if_neg hne]
    exact ⟨hsome, hnone⟩
  · rw [hd.get?_putBack] at hx
    split at hx
    · obtain rfl := Option.some.inj hx
      rfl
    · exact hq.drawn x d hx htree
  · rw [hd.get?_putBack] at hx
    split at hx
    · obtain rfl := Option.some.inj hx
      obtain rfl := Option.some.inj hu
      have hfilled : (l.template c.kind.name).Filled host.config.escapeHtml
          (fun ref k => q.roster.handle? ref.id = some k) c.assigns tree := by
        refine (Template.filled_iff hv).mpr ⟨hd.shape, ?_⟩
        refine Template.filledAt_imp _ _ _ (fun ref y _ hin => ?_) hd.filled
        exact (hd.handled.given _ hin).elim (·.1) (·.1.1)
      exact hfilled
    · exact hq.trees x d u hx hu

/-! ## Draining the queue -/

/-- A component was drawn. -/
def Shown (r : Roster) (id : String) : Prop := ∃ h, r.handle? id = some h ∧ r.tree? h ≠ none

open Classical in
/-- How many components are still to be drawn. -/
noncomputable def remaining (w r : Roster) : Nat :=
  ((w.ids.map Prod.fst).toFinset.filter fun id => ¬r.Shown id).card

theorem remaining_le (w r : Roster) : remaining w r ≤ w.size := by
  classical
  unfold remaining
  refine Nat.le_trans (Finset.card_filter_le _ _) (Nat.le_trans (List.toFinset_card_le _) ?_)
  rw [List.length_map]
  exact Nat.le_refl _

/-- There is one less once another component is drawn. -/
theorem remaining_lt {id : String} (hid : w.handle? id = some k) (hnot : ¬r.Shown id)
    (hshown : r'.Shown id) (hmono : ∀ i, r.Shown i → r'.Shown i) :
    remaining w r' < remaining w r := by
  classical
  have hin : id ∈ (w.ids.map Prod.fst).toFinset :=
    List.mem_toFinset.mpr (Keyed.mem_keys_iff_has.mpr (Option.isSome_iff_exists.mpr ⟨k, hid⟩))
  unfold remaining
  refine Finset.card_lt_card ((Finset.ssubset_iff_of_subset fun i hi => ?_).mpr ⟨id, ?_, ?_⟩)
  · rw [Finset.mem_filter] at hi ⊢
    exact ⟨hi.1, fun h => hi.2 (hmono i h)⟩
  · rw [Finset.mem_filter]
    exact ⟨hin, hnot⟩
  · rw [Finset.mem_filter]
    exact fun h => h.2 hshown

/-- What is drawn stays drawn, and the component that was drawn is. -/
theorem Drew.shown (hd : Drew l host p h c q tree made) (hid : p.roster.handle? c.id = some h) :
    (Roster.putBack q h c tree).Shown c.id ∧
      ∀ i, p.roster.Shown i → (Roster.putBack q h c tree).Shown i := by
  have htree : (Roster.putBack q h c tree).tree? h = some tree := tree?_of_get? hd.get?_self
  refine ⟨⟨h, hd.handled.ids _ _ hid, htree ▸ Option.some_ne_none tree⟩, ?_⟩
  rintro i ⟨k, hk, hsome⟩
  refine ⟨k, hd.handled.ids _ _ hk, ?_⟩
  by_cases hkh : k = h
  · rw [hkh, htree]
    exact Option.some_ne_none tree
  · rw [tree?, hd.get?_putBack, if_neg hkh]
    change q.roster.tree? k ≠ none
    rw [hd.handled.trees, tree?_begun_of_ne hkh]
    exact hsome

/-- **The next component is drawn**, and nothing fails. -/
theorem Copies.renderOne (hl : l.Regular host page) (hoff : host.tracking false = host)
    (hw : Coherent l host w) (hroom : ∀ n, w.capacity = some n → w.size ≤ n)
    {queue : List Handle} {former : FormerTrees} (hr : Copies l host w p.roster)
    (harena : p.roster.Arena) (hnodup : p.roster.queue.Nodup) (hq : p.roster.queue = h :: queue)
    (herrors : p.errors = []) (hformer : ∀ e ∈ former, e.2 = none) :
    ∃ former' p', Roster.renderOne host { p with roster := { p.roster with queue } } h former =
        (.ok (), former', p') ∧
      Copies l host w p'.roster ∧ p'.errors = [] ∧ (∀ e ∈ former', e.2 = none) ∧
      remaining w p'.roster < remaining w p.roster := by
  have hhead : p.roster.queue.head? = some h := by rw [hq, List.head?_cons]
  obtain ⟨hsome, hnone⟩ := hr.waiting h (hq ▸ List.mem_cons_self)
  obtain ⟨c, hc⟩ := Option.ne_none_iff_exists'.mp hsome
  have htree : c.tree = none := (tree?_of_get? hc).symm.trans hnone
  have hid := hr.listed h c hc
  have hlive : c.retired = false := by
    obtain ⟨d, hd, -, hlive⟩ := (harena.ids_iff c.id h).mp hid
    obtain rfl := Option.some.inj (hc.symm.trans hd)
    exact hlive
  have hkind := hr.kinds h c hc
  have hregular := hl.template hkind
  -- what its counterpart was filled with tells how its references are answered
  obtain ⟨k, d, hk, hd, hsame⟩ := hr.ids c.id h hid
  obtain ⟨hname, hassigns⟩ := hsame c hc
  obtain ⟨u, -, -, hfilled⟩ := hw.asked hl hd
  rw [hname, hassigns] at hfilled
  replace hfilled := (Template.filledAt_settled _ hregular.values (Scope.ofAssigns c.assigns) _).mp
    hfilled
  obtain ⟨tree, q, hrun, hcopies, hsame⟩ := succeeds_template host
    (welcome hl hroom _) hfilled (Roster.begun p h c) (hr.begun hhead hnodup c)
  obtain ⟨hs, fs, q', result, hone, hrun', -, hdraws⟩ := exists_draws host
    (fun t ht => by cases htree.symm.trans ht) hq hc hlive former
  rw [hkind, htree] at hrun'
  obtain ⟨rfl, rfl⟩ := Prod.mk.inj (hrun'.symm.trans hrun)
  have hclean : q'.errors = [] := hsame.trans herrors
  obtain ⟨made, hdrew⟩ := exists_drew hl hoff hr.open harena hkind (hdraws rfl) hclean
  obtain ⟨hshown, hmono⟩ := hdrew.shown hid
  have hnot : ¬p.roster.Shown c.id := by
    rintro ⟨x, hx, hdrawn⟩
    obtain rfl := Option.some.inj (hid.symm.trans hx)
    exact hdrawn hnone
  refine ⟨_, _, hone, hr.putBack hcopies hdrew hregular.values, hclean, fun e he => ?_,
    remaining_lt hk hnot hshown hmono⟩
  change e ∈ former.insertNew h c.tree at he
  unfold Keyed.insertNew at he
  split at he
  · exact hformer e he
  · rcases Keyed.mem_of_mem_insert he with rfl | he
    · exact htree
    · exact hformer e he

/-- The pass once a copy is complete. -/
structure Complete (l : Library) (host : Host) (w : Roster) (r₀ : Roster) (p : Pass)
    (former : FormerTrees) : Prop where
  /-- Everything is as in the other roster. -/
  copies : Copies l host w p.roster
  /-- The trees go together with those from before. -/
  redrawn : Redrawn (fun _ => True) r₀ none p.roster former
  /-- The queue is empty. -/
  queue : p.roster.queue = []
  /-- No failure was noted. -/
  errors : p.errors = []
  /-- No component had a tree before. -/
  former : ∀ e ∈ former, e.2 = none

/-- **A copy is completed**: every component is drawn, and nothing fails. -/
theorem Copies.drain (hl : l.Regular host page) (hoff : host.tracking false = host)
    (hw : Coherent l host w) (hroom : ∀ n, w.capacity = some n → w.size ≤ n) {r₀ : Roster}
    {p₀ : Pass} (hp₀ : Redrawn (fun _ => True) r₀ none p₀.roster [])
    (htidy : Tidy none [] p₀.roster) {fuel : Nat} {ds : List Drawing} {former : FormerTrees}
    (hd : Drains host p₀ ds p former) (hr : Copies l host w p.roster) (herrors : p.errors = [])
    (hformer : ∀ e ∈ former, e.2 = none) (hfuel : remaining w p.roster ≤ fuel) :
    ∃ former' p', Roster.drain host fuel p former = some (.ok (), former', p') ∧
      Complete l host w r₀ p' former' := by
  have hredrawn := hd.redrawn (fun _ _ => trivial) hp₀
  have hnodup := (hd.tidy (fun _ _ => trivial) hp₀ htidy).nodup
  induction hn : remaining w p.roster using Nat.strong_induction_on
    generalizing fuel p ds former with
  | h n ih =>
      cases hq : p.roster.queue with
      | nil =>
          refine ⟨former, p, ?_, hr, hredrawn, hq, herrors, hformer⟩
          unfold Roster.drain
          rw [hq]
      | cons h queue =>
          obtain ⟨former₁, p₁, hone, hr₁, herrors₁, hformer₁, hlt⟩ :=
            hr.renderOne hl hoff hw hroom hredrawn.arena hnodup hq herrors hformer
          cases fuel with
          | zero => omega
          | succ fuel =>
              have hd₁ := hd.step hq hone
              obtain ⟨former', p', hdrain, hcomplete⟩ := ih _ (hn ▸ hlt) hd₁ hr₁ herrors₁ hformer₁
                (Nat.le_of_lt_succ (Nat.lt_of_lt_of_le hlt hfuel))
                (hd₁.redrawn (fun _ _ => trivial) hp₀)
                (hd₁.tidy (fun _ _ => trivial) hp₀ htidy).nodup rfl
              refine ⟨former', p', ?_, hcomplete⟩
              unfold Roster.drain
              rw [hq]
              dsimp only
              rw [hone]
              exact hdrain

/-- Nothing is said against what was not there before. -/
theorem patches_of_new {former : FormerTrees} (hformer : ∀ e ∈ former, e.2 = none)
    (hborn : r.stillborn = []) (hfits : ∀ h t, r.tree? h = some t → t.Fits) :
    ∃ ps, r.patches former = (.ok ps, r) := by
  induction former with
  | nil => exact ⟨[], rfl⟩
  | cons e former ih =>
      obtain ⟨h, before⟩ := e
      obtain ⟨hnone, hrest⟩ := List.forall_mem_cons.mp hformer
      obtain rfl : before = none := hnone
      obtain ⟨ps, hps⟩ := ih hrest
      unfold patches
      cases hc : r.get? h with
      | none => exact ⟨ps, hps⟩
      | some c =>
          dsimp only
          cases htree : c.tree with
          | none => exact ⟨ps, hps⟩
          | some tree =>
              have hwell := (hfits h tree ((tree?_of_get? hc).trans htree)).wellFormed
              have hblank : r.blankStillborn tree = tree :=
                Tree.blank_of_disjoint tree fun x _ => hborn ▸ List.not_mem_nil
              have hput : r.put h { c with tree := some tree } = r := by
                rw [← htree]
                exact put_self hc
              dsimp only
              rw [hblank, hput, Tree.patchFrom_none hwell, hps]
              exact ⟨_, rfl⟩

/-- Comparing what was drawn from scratch leaves it as it is. -/
theorem Complete.renderQueue {r₀ : Roster} {p₀ : Pass} {former : FormerTrees} {fuel : Nat}
    (hp : Complete l host w r₀ p former)
    (hdrain : Roster.drain host fuel p₀ [] = some (.ok (), former, p)) :
    ∃ ps, Roster.renderQueue host fuel p₀ =
      some (.ok ps, { p with roster := p.roster.keepTrees former }) := by
  have hborn := hp.copies.open.stillborn
  have hdrop : p.roster.dropStillborn = p.roster := by
    rw [dropStillborn, hborn]
    rfl
  obtain ⟨ps, hps⟩ := patches_of_new hp.former hborn fun h t ht => (hp.redrawn.suits h t ht).1
  refine ⟨ps, ?_⟩
  unfold Roster.renderQueue
  rw [hdrain]
  dsimp only
  rw [hdrop, hps]

theorem Copies.keepTrees (hr : Copies l host w r) (former : FormerTrees) :
    Copies l host w (r.keepTrees former) := by
  have ho := hr.open
  exact ⟨⟨ho.spare_sorted, ho.spare_empty, ho.ids, ho.stillborn, ho.propped, ho.queued⟩,
    hr.sorted, hr.capacity, hr.kinds, hr.listed, hr.ids, hr.waiting, hr.drawn, hr.trees⟩

end ViewSync.Roster
