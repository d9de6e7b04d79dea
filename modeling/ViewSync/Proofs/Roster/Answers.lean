import ViewSync.Proofs.Assigns.Merging
import ViewSync.Proofs.Roster.Sighted
import ViewSync.Proofs.Template.Filled

/-!
# References to components that are made of their props

Where every kind renders a template from its props, a reference that is answered leaves the
component with the props that it was handed, and with nothing else. It is queued if it is not as it
was. No other component changes, and none changes its tree.
-/

namespace ViewSync.Roster

/-- Every kind takes in its props and renders a template from them. -/
def Templated (kinds : Kinds) : Prop := ∀ key, ∃ t, kinds key = Kind.ofTemplate t

/-! ## What a reference does -/

/-- A component that was handed props. -/
def handed (c : Component) (props : Fields) : Component :=
  { c with assigns := (c.assigns.merge props).1 }

/-- What a reference that is answered does, when nothing is stillborn. -/
inductive Answers (r : Roster) (ref : Reference) : Handle → Roster → Prop where
  /-- The component refers to itself. -/
  | inside {h : Handle} : r.handle? ref.id = some h → r.get? h = none →
      Answers r ref h (r.see h)
  /-- It takes in the props. -/
  | live {h : Handle} {c : Component} (queue : List Handle) (seen : KeySet Handle)
      (undo : Option Undo) : r.handle? ref.id = some h → r.get? h = some c →
      c.kind.name = ref.kind.name →
      (queue = r.queue ∨ queue = r.queue ++ [h] ∧ (handed c ref.props).isStale = true) →
      ((handed c ref.props).isStale = true → h ∈ queue) →
      Answers r ref h { r.put h (handed c ref.props) with queue, seen, undo }
  /-- It is a new one. -/
  | created (queue : List Handle) (seen : KeySet Handle) : r.handle? ref.id = none →
      (queue = r.queue ∨ queue = r.queue ++ [r.takeHandle.1]) → r.takeHandle.1 ∈ queue →
      Answers r ref r.takeHandle.1
        { r.create ref.id ref.kind (Assigns.empty.merge ref.props).1 none with queue, seen }

theorem schedule_cases (r : Roster) (h : Handle) :
    ∃ queue, r.schedule h = { r with queue } ∧ h ∈ queue ∧
      (queue = r.queue ∨ queue = r.queue ++ [h]) := by
  unfold schedule
  split
  · next hin => exact ⟨r.queue, rfl, hin, .inl rfl⟩
  · exact ⟨_, rfl, List.mem_append_right _ List.mem_cons_self, .inr rfl⟩

variable {kinds : Kinds} {r r' : Roster} {ref : Reference} {h : Handle} {changed : Bool}

/-- **An answer is one of these.** -/
theorem answers_refer (hkinds : Templated kinds) (hborn : r.stillborn = [])
    (hok : r.refer kinds ref.id ref.kind ref.props none = (.ok (h, changed), r')) :
    Answers r ref h r' := by
  have hnew (hid : r.handle? ref.id = none)
      (hok : r.referNew kinds ref.id ref.kind ref.props none = (.ok (h, changed), r')) :
      Answers r ref h r' := by
    obtain ⟨t, ht⟩ := hkinds ref.kind.key
    have hspec := referNew_spec kinds ref.kind ref.props none hid
    obtain ⟨hanswer, hafter⟩ := Prod.ext_iff.mp hok
    generalize (r.referNew kinds ref.id ref.kind ref.props none).1 = x at hspec hanswer
    generalize (r.referNew kinds ref.id ref.kind ref.props none).2 = y at hspec hafter
    obtain rfl : y = r' := hafter
    cases hspec with
    | refused e => cases hanswer
    | failed => cases hanswer
    | stillborn hsome => cases hid.symm.trans hsome
    | inside hsome => cases hid.symm.trans hsome
    | stale hsome => cases hid.symm.trans hsome
    | unchanged hsome => cases hid.symm.trans hsome
    | @created a b _ hmount hupdate =>
        rw [ht] at hmount hupdate
        obtain rfl := Except.ok.inj hmount
        obtain ⟨rfl, -⟩ := Prod.mk.inj hupdate
        obtain ⟨rfl, -⟩ := Prod.mk.inj (Except.ok.inj hanswer)
        obtain ⟨queue, hq, hin, hcases⟩ := schedule_cases
          ((r.create ref.id ref.kind (Assigns.empty.merge ref.props).1 none).see r.takeHandle.1)
          r.takeHandle.1
        rw [hq]
        refine .created queue _ hid ?_ hin
        rwa [see, create_rest] at hcases
  unfold refer at hok
  split at hok
  · next k hid =>
      rw [hborn, if_neg List.not_mem_nil] at hok
      split at hok
      · next hnone =>
          obtain ⟨hk, rfl⟩ := Prod.mk.inj hok
          obtain ⟨rfl, -⟩ := Prod.mk.inj (Except.ok.inj hk)
          exact .inside hid hnone
      · next c hc =>
          split at hok
          · cases hok
          · next hname =>
              obtain ⟨t, ht⟩ := hkinds c.kind.key
              unfold referLive at hok
              rw [ht] at hok
              dsimp only [Kind.ofTemplate, Kind.mergeProps] at hok
              have howner : (none <|> c.owner) = c.owner := rfl
              rw [howner] at hok
              have hname := Classical.not_not.mp hname
              split at hok
              · next hstale =>
                  obtain ⟨hk, rfl⟩ := Prod.mk.inj hok
                  obtain ⟨rfl, -⟩ := Prod.mk.inj (Except.ok.inj hk)
                  obtain ⟨queue, hq, hin, hcases⟩ := schedule_cases
                    (((r.keepState c).put k (handed c ref.props)).see k) k
                  change Answers r ref k
                    ((((r.keepState c).put k (handed c ref.props)).see k).schedule k)
                  rw [hq]
                  have hqueue := hcases.imp_right fun heq => And.intro heq hstale
                  exact .live queue _ _ hid hc hname hqueue fun _ => hin
              · next hstale =>
                  obtain ⟨hk, rfl⟩ := Prod.mk.inj hok
                  obtain ⟨rfl, -⟩ := Prod.mk.inj (Except.ok.inj hk)
                  exact .live r.queue _ _ hid hc hname (.inl rfl) fun h => absurd h hstale
  · next hid =>
      split at hok
      · split at hok
        · cases hok
        · exact hnew hid hok
      · exact hnew hid hok

/-- A reference to a component of its kind is answered, and so is one to a new component if there is
room for it. -/
theorem exists_refer (ref : Reference) (hkinds : Templated kinds) (hborn : r.stillborn = [])
    (hkind : ∀ h c, r.handle? ref.id = some h → r.get? h = some c → c.kind.name = ref.kind.name)
    (hroom : r.handle? ref.id = none → ∀ n, r.capacity = some n → r.size < n) :
    ∃ h changed r', r.refer kinds ref.id ref.kind ref.props none = (.ok (h, changed), r') := by
  have hnew : ∃ h changed r',
      r.referNew kinds ref.id ref.kind ref.props none = (.ok (h, changed), r') := by
    obtain ⟨t, ht⟩ := hkinds ref.kind.key
    unfold referNew
    rw [ht]
    exact ⟨_, _, _, rfl⟩
  unfold refer
  cases hid : r.handle? ref.id with
  | none =>
      dsimp only
      cases hcapacity : r.capacity with
      | none => exact hnew
      | some n =>
          dsimp only
          rw [if_neg (Nat.not_le_of_lt (hroom hid n hcapacity))]
          exact hnew
  | some k =>
      dsimp only
      rw [hborn, if_neg List.not_mem_nil]
      cases hc : r.get? k with
      | none => exact ⟨_, _, _, rfl⟩
      | some c =>
          obtain ⟨t, ht⟩ := hkinds c.kind.key
          dsimp only
          rw [if_neg (not_not.mpr (hkind k c hid hc))]
          unfold referLive
          rw [ht]
          dsimp only [Kind.ofTemplate, Kind.mergeProps]
          split
          · exact ⟨_, _, _, rfl⟩
          · exact ⟨_, _, _, rfl⟩

/-! ## What stays -/

/-- A roster that references may be made to, also while a record is away: every record holds nothing
but props of its kind, and is queued if it has to be rendered. -/
structure Open (names : String → List String) (r : Roster) : Prop where
  /-- The handles to spare are in order. -/
  spare_sorted : KeySet.Sorted r.spare
  /-- They have no records. -/
  spare_empty : r.SpareEmpty
  /-- The handle of an id has a slot and is not to spare. -/
  ids : ∀ id h, r.handle? id = some h → h < r.slots.length ∧ h ∉ r.spare
  /-- Nothing is stillborn. -/
  stillborn : r.stillborn = []
  /-- A record holds nothing but props of its kind. -/
  propped : ∀ h c, r.get? h = some c → c.assigns.Propped (names c.kind.name)
  /-- What has to be rendered is queued. -/
  queued : ∀ h c, r.get? h = some c → c.retired = false → c.isStale = true → h ∈ r.queue

/-- Where nothing is queued, every component was rendered, and nothing is written. -/
theorem Open.settled {names : String → List String} {r : Roster} (ho : r.Open names)
    (hqueue : r.queue = []) {h : Handle} {c : Component} (hc : r.get? h = some c)
    (hlive : c.retired = false) : (∃ tree, c.tree = some tree) ∧ c.assigns.before = [] := by
  have hcalm : c.isStale = false := by
    refine eq_false_of_ne_true fun hstale => ?_
    have hin := ho.queued h c hc hlive hstale
    rw [hqueue] at hin
    cases hin
  rw [Component.isStale, Bool.or_eq_false_iff, Assigns.anyWritten, Bool.not_eq_false',
    List.isEmpty_iff] at hcalm
  exact ⟨Option.isSome_iff_exists.mp (Option.isNone_eq_false_iff.mp hcalm.1), hcalm.2⟩

/-- No component has the next handle yet. -/
theorem Open.ne_takeHandle {names : String → List String} {r : Roster} (ho : r.Open names)
    {id : String} {k : Handle} (hk : r.handle? id = some k) : k ≠ r.takeHandle.1 := by
  obtain ⟨hlt, hout⟩ := ho.ids id k hk
  exact Roster.ne_takeHandle hout hlt

/-- What a component is to a reference: it has the id and is of the kind. -/
def Named (r : Roster) (ref : Reference) (h : Handle) : Prop :=
  r.handle? ref.id = some h ∧ ∃ c, r.get? h = some c ∧ c.kind.name = ref.kind.name

/-- A component holds the props of a reference. -/
def HasProps (r : Roster) (ref : Reference) (h : Handle) : Prop :=
  ∃ c, r.get? h = some c ∧ c.assigns.settled = Assigns.ofProps ref.props

/-- What a reference to a component has left alone. -/
structure Answered (r : Roster) (ref : Reference) (h : Handle) (r' : Roster) : Prop where
  /-- The id now has the handle of the answer, and other ids have theirs. -/
  ids : ∀ id, r'.handle? id = if id = ref.id then some h else r.handle? id
  /-- Other records are as they were. -/
  others : ∀ k, k ≠ h → r'.get? k = r.get? k
  /-- No tree is touched. -/
  trees : ∀ k, r'.tree? k = r.tree? k
  /-- At most the component itself is queued, and then it has a record. -/
  queue : r'.queue = r.queue ∨ r'.queue = r.queue ++ [h] ∧ r'.get? h ≠ none
  /-- An id that was there keeps its handle. -/
  listed : ∀ k, r.handle? ref.id = some k → k = h
  /-- A record that is away stays away. -/
  away : ∀ id k, r.handle? id = some k → r.get? k = none → r'.get? k = none
  /-- The component has the props, unless its record is away. -/
  given : (r'.handle? ref.id = some h ∧ r'.get? h = none) ∨ (Named r' ref h ∧ HasProps r' ref h)
  /-- A record stays, and so do its assigns if nothing is written in the end. -/
  record : ∀ c, r.get? h = some c → ∃ c', r'.get? h = some c' ∧ c'.id = c.id ∧ c'.kind = c.kind ∧
    c'.tree = c.tree ∧ (c'.assigns.before = [] → c'.assigns = c.assigns)
  /-- A new record is of the kind that was asked for. -/
  origin : r.get? h = none → ∀ c', r'.get? h = some c' → c'.kind = ref.kind

variable {names : String → List String}

theorem Answers.answered (ha : Answers r ref h r') (ho : r.Open names)
    (hnd : ∀ n, (names n).Nodup) (hfit : ref.props.Fit (names ref.kind.name)) :
    Answered r ref h r' := by
  cases ha with
  | inside hid hnone =>
      refine ⟨fun id => ?_, fun _ _ => rfl, fun _ => rfl, .inl rfl,
        fun k hk => (Option.some.inj (hid.symm.trans hk)).symm, fun _ _ _ h => h, .inl ⟨hid, hnone⟩,
        fun c hc => (by cases hnone.symm.trans hc), fun _ c hc => (by cases hnone.symm.trans hc)⟩
      split
      · next heq => exact heq ▸ hid
      · rfl
  | @live h c queue seen undo hid hc hname hqueue _ =>
      have hget (k : Handle) : ({ r.put h (handed c ref.props) with queue, seen, undo } :
          Roster).get? k = if k = h then some (handed c ref.props) else r.get? k :=
        get?_put (lt_of_get? hc) _ k
      have hhold : (handed c ref.props).assigns.settled = Assigns.ofProps ref.props := by
        have hpropped := ho.propped h c hc
        rw [hname] at hpropped
        exact hpropped.settled_merge hfit (hnd _)
      have hids (id : String) : (if id = ref.id then some h else r.handle? id) = r.handle? id := by
        split
        · next heq => exact heq ▸ hid.symm
        · rfl
      have hself := (hget h).trans (if_pos rfl)
      refine ⟨fun id => (hids id).symm, fun k hk => (hget k).trans (if_neg hk), fun k => ?_,
        hqueue.imp_right fun heq => ⟨heq.1, ?_⟩,
        fun k hk => (Option.some.inj (hid.symm.trans hk)).symm, fun id k _ hnone => ?_,
        .inr ⟨⟨hid, _, hself, hname⟩, _, hself, hhold⟩, fun d hd => ⟨_, hself, ?_⟩,
        fun hnone => (by cases hnone.symm.trans hc)⟩
      · rw [tree?, tree?, hget]
        split
        · next heq =>
            subst heq
            rw [hc]
            rfl
        · rfl
      · rw [hself]
        exact Option.some_ne_none _
      · rw [hget]
        split
        · next heq => cases (heq ▸ hnone).symm.trans hc
        · exact hnone
      · obtain rfl := Option.some.inj (hc.symm.trans hd)
        exact ⟨rfl, rfl, rfl, Assigns.merge_of_before_eq_nil⟩
  | created queue seen hid hqueue _ =>
      have hget (k : Handle) : ({ r.create ref.id ref.kind (Assigns.empty.merge ref.props).1 none
          with queue, seen } : Roster).get? k = _ :=
        get?_create ho.spare_empty ref.id ref.kind _ none k
      have hnone := get?_takeHandle ho.spare_empty
      have hself := (hget r.takeHandle.1).trans (if_pos rfl)
      refine ⟨fun id => ?_, fun k hk => (hget k).trans (if_neg hk), fun k => ?_,
        hqueue.imp_right fun heq => ⟨heq, ?_⟩, fun k hk => (by cases hid.symm.trans hk),
        fun id k hk hnone => ?_, .inr ⟨⟨?_, _, hself, rfl⟩, _, hself, rfl⟩,
        fun c hc => (by cases hnone.symm.trans hc), fun _ c' hc' => ?_⟩
      · exact handle?_create r ref.id ref.kind _ none id
      · rw [tree?, tree?, hget]
        split
        · next heq =>
            rw [heq, hnone]
            rfl
        · rfl
      · rw [hself]
        exact Option.some_ne_none _
      · rw [hget, if_neg (ho.ne_takeHandle hk)]
        exact hnone
      · exact (handle?_create r ref.id ref.kind _ none ref.id).trans (if_pos rfl)
      · obtain rfl := Option.some.inj (hself.symm.trans hc')
        rfl

theorem Answers.open (ha : Answers r ref h r') (ho : r.Open names)
    (hnd : ∀ n, (names n).Nodup) (hfit : ref.props.Fit (names ref.kind.name)) :
    r'.Open names := by
  cases ha with
  | inside hid hnone => exact ⟨ho.spare_sorted, ho.spare_empty, ho.ids, ho.stillborn, ho.propped,
      ho.queued⟩
  | @live h c queue seen undo hid hc hname hqueue hstale =>
      have hget (k : Handle) : ({ r.put h (handed c ref.props) with queue, seen, undo } :
          Roster).get? k = if k = h then some (handed c ref.props) else r.get? k :=
        get?_put (lt_of_get? hc) _ k
      have hsub (k : Handle) (hk : k ∈ r.queue) : k ∈ queue := by
        rcases hqueue with rfl | ⟨rfl, -⟩
        · exact hk
        · exact List.mem_append_left _ hk
      refine ⟨ho.spare_sorted, ho.spare_empty.put hc _, fun id k hk => ?_, ho.stillborn,
        fun k d hd => ?_, fun k d hd hlive hdstale => ?_⟩
      · change k < (r.slots.set h _).length ∧ _
        rw [List.length_set]
        exact ho.ids id k hk
      · rw [hget] at hd
        split at hd
        · obtain rfl := Option.some.inj hd
          change ((c.assigns.merge ref.props).1).Propped (names c.kind.name)
          have hpropped := ho.propped h c hc
          rw [hname] at hpropped ⊢
          exact hpropped.merge hfit (hnd _)
        · exact ho.propped k d hd
      · rw [hget] at hd
        split at hd
        · next heq =>
            obtain rfl := Option.some.inj hd
            exact heq ▸ hstale hdstale
        · exact hsub k (ho.queued k d hd hlive hdstale)
  | created queue seen hid hqueue hin =>
      have hget (k : Handle) : ({ r.create ref.id ref.kind (Assigns.empty.merge ref.props).1 none
          with queue, seen } : Roster).get? k = _ :=
        get?_create ho.spare_empty ref.id ref.kind _ none k
      have hsub (k : Handle) (hk : k ∈ r.queue) : k ∈ queue := by
        rcases hqueue with rfl | rfl
        · exact hk
        · exact List.mem_append_left _ hk
      refine ⟨?_, ho.spare_empty.create ho.spare_sorted ref.id ref.kind _ none,
        bound_create ho.spare_empty ho.spare_sorted ho.ids ref.id ref.kind _ none, ?_,
        fun k d hd => ?_, fun k d hd hlive hdstale => ?_⟩
      · rw [create_rest]
        exact ho.spare_sorted.sublist (List.tail_sublist _)
      · rw [create_rest]
        exact ho.stillborn
      · rw [hget] at hd
        split at hd
        · obtain rfl := Option.some.inj hd
          exact (Assigns.propped_empty).merge hfit (hnd _)
        · exact ho.propped k d hd
      · rw [hget] at hd
        split at hd
        · next heq => exact heq ▸ hin
        · exact hsub k (ho.queued k d hd hlive hdstale)

/-! ## One reference after the other -/

/-- References that are made one after the other, and the handles that they are answered with. -/
inductive Referred (kinds : Kinds) : Roster → List (Reference × Handle) → Roster → Prop where
  | done (r : Roster) : Referred kinds r [] r
  | call {r r' r'' : Roster} {ref : Reference} {h : Handle} {changed : Bool}
      {calls : List (Reference × Handle)} :
      r.refer kinds ref.id ref.kind ref.props none = (.ok (h, changed), r') →
      Referred kinds r' calls r'' → Referred kinds r ((ref, h) :: calls) r''

theorem Referred.trans {r'' : Roster} {calls calls' : List (Reference × Handle)}
    (h : Referred kinds r calls r') (h' : Referred kinds r' calls' r'') :
    Referred kinds r (calls ++ calls') r'' := by
  induction h with
  | done r => exact h'
  | call hok _ ih => exact .call hok (ih h')

/-- What some references have left alone, and what they have given. -/
structure Handled (names : String → List String) (r : Roster) (calls : List (Reference × Handle))
    (r' : Roster) : Prop where
  /-- Further references may be made. -/
  «open» : r'.Open names
  /-- Ids keep their handles. -/
  ids : ∀ id k, r.handle? id = some k → r'.handle? id = some k
  /-- A record stays, and so do its assigns if nothing is written in the end. -/
  record : ∀ k c, r.get? k = some c → ∃ c', r'.get? k = some c' ∧ c'.id = c.id ∧
    c'.kind = c.kind ∧ c'.tree = c.tree ∧ (c'.assigns.before = [] → c'.assigns = c.assigns)
  /-- Records that nothing referred to are as they were. -/
  others : ∀ k, k ∉ calls.map Prod.snd → r'.get? k = r.get? k
  /-- No tree is touched. -/
  trees : ∀ k, r'.tree? k = r.tree? k
  /-- A new record is of a kind that was asked for. -/
  origin : ∀ k, r.get? k = none → ∀ c', r'.get? k = some c' → ∃ e ∈ calls, c'.kind = e.1.kind
  /-- A record that is away stays away. -/
  away : ∀ id k, r.handle? id = some k → r.get? k = none → r'.get? k = none
  /-- A component is queued at most once for each reference to it, and not while its record is away.
  -/
  queue : ∀ k, r'.queue.count k ≤ r.queue.count k + (calls.map Prod.snd).count k ∧
    (r'.get? k = none → r'.queue.count k ≤ r.queue.count k)
  /-- A component has the props, unless its record is away or it was referred to again. -/
  given : ∀ e ∈ calls, (r'.handle? e.1.id = some e.2 ∧ r'.get? e.2 = none) ∨
    (Named r' e.1 e.2 ∧ (HasProps r' e.1 e.2 ∨ 2 ≤ (calls.map Prod.snd).count e.2))

/-- **What is referred to once holds the props that it was handed.** -/
theorem Referred.handled (hkinds : Templated kinds) (hnd : ∀ n, (names n).Nodup)
    {calls : List (Reference × Handle)} (hcalls : Referred kinds r calls r') (ho : r.Open names)
    (hfit : ∀ e ∈ calls, e.1.props.Fit (names e.1.kind.name)) : Handled names r calls r' := by
  induction hcalls with
  | done r =>
      exact ⟨ho, fun _ _ hk => hk, fun _ c hc => ⟨c, hc, rfl, rfl, rfl, fun _ => rfl⟩,
        fun _ _ => rfl, fun _ => rfl, fun _ hk _ hc => (by cases hk.symm.trans hc),
        fun _ _ _ hk => hk, fun _ => ⟨Nat.le_refl _, fun _ => Nat.le_refl _⟩,
        List.forall_mem_nil _⟩
  | @call r r₁ r' ref h changed calls hok hrest ih =>
      obtain ⟨hone, hfit⟩ := List.forall_mem_cons.mp hfit
      have hanswers := answers_refer hkinds ho.stillborn hok
      have ha := hanswers.answered ho hnd hone
      have hr := ih (hanswers.open ho hnd hone) hfit
      have hids (id : String) (k : Handle) (hk : r.handle? id = some k) :
          r₁.handle? id = some k := by
        rw [ha.ids]
        split
        · next heq => rw [ha.listed k (heq ▸ hk)]
        · exact hk
      have hrecord (k : Handle) (c : Component) (hc : r.get? k = some c) : ∃ c₁,
          r₁.get? k = some c₁ ∧ c₁.id = c.id ∧ c₁.kind = c.kind ∧ c₁.tree = c.tree ∧
            (c₁.assigns.before = [] → c₁.assigns = c.assigns) := by
        by_cases hk : k = h
        · subst hk
          exact ha.record c hc
        · exact ⟨c, (ha.others k hk).trans hc, rfl, rfl, rfl, fun _ => rfl⟩
      refine ⟨hr.open, fun id k hk => hr.ids id k (hids id k hk), fun k c hc => ?_, fun k hk => ?_,
        fun k => (hr.trees k).trans (ha.trees k), fun k hnone c' hc' => ?_,
        fun id k hk hnone => ?_, fun k => ?_, ?_⟩
      · obtain ⟨c₁, hc₁, hid₁, hkind₁, htree₁, hsame₁⟩ := hrecord k c hc
        obtain ⟨c', hc', hid', hkind', htree', hsame'⟩ := hr.record k c₁ hc₁
        refine ⟨c', hc', hid'.trans hid₁, hkind'.trans hkind₁, htree'.trans htree₁, fun hnil => ?_⟩
        have hsame := hsame' hnil
        exact hsame.trans (hsame₁ (hsame ▸ hnil))
      · rw [List.map_cons, List.mem_cons, not_or] at hk
        exact (hr.others k hk.2).trans (ha.others k hk.1)
      · cases hc₁ : r₁.get? k with
        | none =>
            obtain ⟨e, he, hkind⟩ := hr.origin k hc₁ c' hc'
            exact ⟨e, List.mem_cons_of_mem _ he, hkind⟩
        | some c₁ =>
            -- it is what this reference has made
            obtain ⟨d, hd, -, hkind, -, -⟩ := hr.record k c₁ hc₁
            obtain rfl := Option.some.inj (hc'.symm.trans hd)
            have hk : k = h := by
              by_contra hne
              cases hnone.symm.trans ((ha.others k hne).symm.trans hc₁)
            subst hk
            exact ⟨_, List.mem_cons_self, hkind.trans (ha.origin hnone c₁ hc₁)⟩
      · exact hr.away id k (hids id k hk) (ha.away id k hk hnone)
      · obtain ⟨hcount, haway⟩ := hr.queue k
        rw [List.map_cons, List.count_cons]
        dsimp only
        rcases ha.queue with hsame | ⟨hmore, hin⟩
        · rw [hsame] at hcount haway
          exact ⟨by omega, haway⟩
        · rw [hmore, List.count_append, List.count_singleton] at hcount haway
          refine ⟨by omega, fun hnone => ?_⟩
          -- what was queued has a record, and so has one in the end
          have hne : h ≠ k := by
            rintro rfl
            obtain ⟨c, hc⟩ := Option.ne_none_iff_exists'.mp hin
            obtain ⟨c', hc', -⟩ := hr.record h c hc
            cases hnone.symm.trans hc'
          have := haway hnone
          simpa [hne] using this
      · refine List.forall_mem_cons.mpr ⟨?_, fun e he => ?_⟩
        · rcases ha.given with ⟨hid, hnone⟩ | ⟨⟨hid, c, hc, hname⟩, hholds⟩
          · exact .inl ⟨hr.ids _ h hid, hr.away _ h hid hnone⟩
          · obtain ⟨c', hc', -, hkind', -, -⟩ := hr.record h c hc
            refine .inr ⟨⟨hr.ids _ h hid, c', hc', hkind' ▸ hname⟩, ?_⟩
            by_cases hagain : h ∈ calls.map Prod.snd
            · right
              have hpos := List.count_pos_iff.mpr hagain
              change 2 ≤ (h :: calls.map Prod.snd).count h
              rw [List.count_cons_self]
              omega
            · left
              rw [HasProps, hr.others h hagain]
              exact hholds
        · refine (hr.given e he).imp_right fun hgiven => hgiven.imp_right fun hheld =>
            hheld.imp_right fun htwo => ?_
          exact Nat.le_trans htwo (List.count_le_count_cons ..)

end ViewSync.Roster
