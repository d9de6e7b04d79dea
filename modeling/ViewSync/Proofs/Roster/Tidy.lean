import ViewSync.Proofs.Roster.Growth
import ViewSync.Proofs.Roster.Reach

/-!
# The queue and what is seen

What a pass can rely on while it drains the queue: no component waits in it twice, nor does one that
is being drawn or that is stillborn; and of a live component that is seen, all that its tree refers
to is seen as well, unless the component is queued or was drawn already. A component that is queued
is seen without what is in its tree, since it is to be drawn anew; if that fails, nothing has seen
what is in its tree but other references.
-/

namespace ViewSync.Roster

/-! ## Rosters with a record away -/

/-- Records, ids and handles go together, with the record of the component that is being drawn put
back in its place. -/
def Underway (cur : Option (Handle × Component)) (r : Roster) : Prop :=
  match cur with
  | none => r.Arena
  | some (h, c) => Away r h ∧ (r.put h c).Arena

namespace Underway

variable {cur : Option (Handle × Component)} {r r' : Roster}

theorem edit {kinds : Kinds} {Good : Value → Prop} (hu : Underway cur r)
    (he : Edit kinds Good r r') : Underway cur r' := by
  match cur, hu with
  | none, hr => exact Arena.edit hr he
  | some (h, c), ⟨haway, hr⟩ =>
      obtain ⟨hedit, haway'⟩ := he.behind haway c
      exact ⟨haway', hr.edit hedit⟩

theorem refer (hu : Underway cur r) (kinds : Kinds) (id : String) (kind : KindRef) (props : Fields)
    (owner : Option StreamEntry) : Underway cur (r.refer kinds id kind props owner).2 :=
  have hedit : Edit kinds (fun _ => True) r (r.refer kinds id kind props owner).2 :=
    edit_refer r id kind owner fun _ _ => trivial
  hu.edit hedit

theorem spare_empty (hu : Underway cur r) : r.SpareEmpty := by
  match cur, hu with
  | none, hr => exact Arena.spare_empty hr
  | some (h, c), ⟨haway, hr⟩ =>
      intro k hk
      have hne : h ≠ k := fun heq => haway.2 (heq ▸ hk)
      have hempty := hr.spare_empty k hk
      change (r.slots.set h (some c))[k]? = some none at hempty
      rwa [List.getElem?_set_ne hne] at hempty

/-- An id belongs to a live record, or to the component that is being drawn. -/
theorem of_handle? (hu : Underway cur r) {id : String} {h : Handle} (hid : r.handle? id = some h) :
    (∃ c, r.get? h = some c ∧ c.id = id ∧ c.retired = false) ∨
      ∃ c, cur = some (h, c) ∧ c.id = id ∧ c.retired = false := by
  match cur, hu with
  | none, hr => exact .inl ((Arena.ids_iff hr id h).mp hid)
  | some (k, d), ⟨haway, hr⟩ =>
      obtain ⟨c, hc, hrest⟩ := (hr.ids_iff id h).mp hid
      rw [get?_put (List.getElem?_eq_some_iff.mp haway.1).1] at hc
      split at hc
      · next heq =>
          obtain rfl := Option.some.inj hc
          exact .inr ⟨_, by rw [heq], hrest⟩
      · exact .inl ⟨c, hc, hrest⟩

theorem ne_of_get? (hu : Underway cur r) {h : Handle} {c : Component} (hc : r.get? h = some c) :
    cur.map Prod.fst ≠ some h := by
  match cur, hu with
  | none, _ => exact fun heq => by cases heq
  | some (k, d), ⟨haway, _⟩ =>
      intro heq
      obtain rfl := Option.some.inj heq
      rw [haway.get?] at hc
      cases hc

theorem ne_takeHandle (hu : Underway cur r) : cur.map Prod.fst ≠ some r.takeHandle.1 := by
  match cur, hu with
  | none, _ => exact fun heq => by cases heq
  | some (k, d), ⟨haway, _⟩ => exact fun heq => haway.ne_takeHandle (Option.some.inj heq)

end Underway

/-! ## In order -/

/-- The queue is in order, and what is seen is seen with all that is in it, apart from what is
queued or was tried. -/
structure Tidy (cur : Option Handle) (tried : List Handle) (r : Roster) : Prop where
  /-- Nothing is queued twice. -/
  nodup : r.queue.Nodup
  /-- What is being rendered is not queued. -/
  idle : ∀ h, cur = some h → h ∉ r.queue
  /-- What is stillborn is not queued, and has a record without a tree. -/
  stillborn : ∀ h ∈ r.stillborn, h ∉ r.queue ∧ ∃ c, r.get? h = some c ∧ c.tree = none
  /-- What the tree of a component that is seen refers to is seen or retired, unless the component
  is queued or was tried. -/
  covered : ∀ h c t, r.get? h = some c → c.retired = false → c.tree = some t → h ∈ r.seen →
    h ∈ r.queue ∨ h ∈ tried ∨ ∀ k ∈ t.handles, k ∈ r.seen ∨ k ∈ r.retired

namespace Tidy

variable {cur : Option Handle} {tried : List Handle} {r r' : Roster}

/-- Records may grow, and more may be seen, if all that is in it is seen along with it. -/
theorem grow (hs : List Handle) (ht : Tidy cur tried r) (hg : Grows r r')
    (hstillborn : r'.stillborn = r.stillborn) (hqueue : r'.queue = r.queue)
    (hseen : Followed r.tree? r.seen hs r'.seen) : Tidy cur tried r' where
  nodup := hqueue ▸ ht.nodup
  idle h hh := hqueue ▸ ht.idle h hh
  stillborn h hh := by
    obtain ⟨hout, c, hc, hnone⟩ := ht.stillborn h (hstillborn ▸ hh)
    obtain ⟨c', hc', -, -, htree⟩ := hg.record h c hc
    exact ⟨hqueue ▸ hout, c', hc', htree.trans hnone⟩
  covered h c' t hc' hlive htree hin := by
    cases hc : r.get? h with
    | none =>
        -- a new record has no tree
        rw [(hg.fresh h c' hc' hc).2] at htree
        cases htree
    | some c =>
        obtain ⟨d, hd, -, hret, htree'⟩ := hg.record h c hc
        obtain rfl := Option.some.inj (hd.symm.trans hc')
        rw [hqueue, hg.retired]
        have htree₀ : c.tree = some t := htree'.symm.trans htree
        by_cases hold : h ∈ r.seen
        · refine (ht.covered h c t hc (hret ▸ hlive) htree₀ hold).imp_right fun hrest =>
            hrest.imp_right fun hall k hk => (hall k hk).imp_left (hseen.before k)
        · right; right
          have htree? : r.tree? h = some t := by rw [tree?, hc]; exact htree₀
          exact fun k hk => .inl (hseen.closed h hin hold t htree? k hk)

/-- A component may be queued that is not away and not stillborn. -/
theorem schedule {h : Handle} (ht : Tidy cur tried r) (hcur : cur ≠ some h)
    (hborn : h ∉ r.stillborn) : Tidy cur tried (r.schedule h) := by
  unfold Roster.schedule
  split
  · exact ht
  · next hout =>
      have hqueue (k : Handle) : k ∈ r.queue ++ [h] ↔ k ∈ r.queue ∨ k = h := by simp
      refine ⟨?_, fun k hk hin => ?_, fun k hk => ?_, fun k c t hc hlive htree hk => ?_⟩
      · refine List.nodup_append.mpr ⟨ht.nodup, by simp, fun a ha b hb => ?_⟩
        obtain rfl := List.mem_singleton.mp hb
        exact fun heq => hout (heq ▸ ha)
      · rcases (hqueue k).mp hin with hin | rfl
        · exact ht.idle k hk hin
        · exact hcur hk
      · obtain ⟨hout', hrecord⟩ := ht.stillborn k hk
        refine ⟨fun hin => ?_, hrecord⟩
        rcases (hqueue k).mp hin with hin | rfl
        · exact hout' hin
        · exact hborn hk
      · exact (ht.covered k c t hc hlive htree hk).imp_left fun hq => (hqueue k).mpr (.inl hq)

/-- A component that is queued may be seen without what is in its tree. -/
theorem see {h : Handle} (ht : Tidy cur tried r) (hin : h ∈ r.queue) :
    Tidy cur tried (r.see h) := by
  have hseen (k : Handle) : k ∈ (r.see h).seen ↔ k = h ∨ k ∈ r.seen := KeySet.mem_insert
  refine ⟨ht.nodup, ht.idle, ht.stillborn, fun k c t hc hlive htree hk => ?_⟩
  rcases (hseen k).mp hk with rfl | hk
  · exact .inl hin
  · exact (ht.covered k c t hc hlive htree hk).imp_right fun hrest =>
      hrest.imp_right fun hall x hx => (hall x hx).imp_left fun hx => (hseen x).mpr (.inr hx)

/-- A component may be seen and queued. -/
theorem see_schedule {h : Handle} (ht : Tidy cur tried r) (hcur : cur ≠ some h)
    (hborn : h ∉ r.stillborn) : Tidy cur tried ((r.see h).schedule h) := by
  have hswap : (r.see h).schedule h = (r.schedule h).see h := by
    unfold Roster.schedule
    exact apply_ite (Roster.see · h) (h ∈ r.queue) r { r with queue := r.queue ++ [h] } |>.symm
  rw [hswap]
  refine (ht.schedule hcur hborn).see ?_
  unfold Roster.schedule
  split
  · next hin => exact hin
  · exact List.mem_append_right _ (List.mem_singleton.mpr rfl)

/-- **References keep all in order.** -/
theorem refer {now : Option (Handle × Component)} (hu : Underway now r)
    (ht : Tidy (now.map Prod.fst) tried r) (kinds : Kinds) (id : String) (kind : KindRef)
    (props : Fields) (owner : Option StreamEntry) :
    Tidy (now.map Prod.fst) tried (r.refer kinds id kind props owner).2 := by
  have hspec := refer_spec kinds r id kind props owner
  generalize (r.refer kinds id kind props owner).1 = x at hspec
  generalize (r.refer kinds id kind props owner).2 = r' at hspec ⊢
  -- handing over props changes neither the queue nor what is seen
  have hover {h : Handle} {c : Component} (hc : r.get? h = some c) :
      Tidy (now.map Prod.fst) tried (r.handOver kinds h c props owner) := by
    have hedit : Edit kinds (fun _ => True) r (r.handOver kinds h c props owner) :=
      .rewrite owner r.seen r.queue hc (fun _ _ => trivial) fun _ hk => hk
    exact ht.grow [] (.of_edit hu.spare_empty hedit) rfl rfl (followed_nil _)
  cases hspec with
  | refused e => exact ht
  | stillborn _ _ => exact ht
  | @inside h hid hnone =>
      refine ht.grow [h] (.of_get? (fun _ => rfl) rfl) rfl rfl ⟨?_, ?_, ?_⟩
      · exact fun k hk => KeySet.mem_insert.mpr (.inr hk)
      · exact fun k hk => KeySet.mem_insert.mpr (.inl (List.mem_singleton.mp hk))
      · intro k hin hout t htree
        -- what is away has no tree in its slot
        obtain rfl := (KeySet.mem_insert.mp hin).resolve_right hout
        rw [tree?, hnone] at htree
        cases htree
  | failed _ _ hc _ => exact hover hc
  | @stale h c hid hborn hc _ => exact (hover hc).see_schedule (hu.ne_of_get? hc) hborn
  | @unchanged h c hid hborn hc _ =>
      exact (hover hc).grow [h] (.of_get? (fun _ => rfl) rfl) rfl rfl (followed_followAll _ _)
  | @created a b hid hmount hupdate =>
      have hedit : Edit kinds (fun _ => True) r { r.create id kind b owner with
          seen := r.seen, queue := r.queue ++ [r.takeHandle.1] } :=
        .create owner r.seen _ hid hmount hupdate (fun _ _ => trivial)
          (fun _ hk => List.mem_append_left _ hk) (by simp)
      have hgrows := Grows.of_edit hu.spare_empty hedit
      have hnew : Tidy (now.map Prod.fst) tried (r.create id kind b owner) := by
        refine ht.grow [] ⟨hgrows.record, hgrows.fresh, hgrows.retired⟩ ?_ ?_ ?_
        · rw [create_rest]
        · rw [create_rest]
        · rw [create_rest]
          exact followed_nil _
      refine hnew.see_schedule hu.ne_takeHandle ?_
      rw [create_rest]
      intro hin
      obtain ⟨-, c, hc, -⟩ := ht.stillborn _ hin
      rw [get?_takeHandle hu.spare_empty] at hc
      cases hc

/-- All that a hole does to a roster keeps the rest in order. -/
theorem closed (now : Option (Handle × Component)) (kinds : Kinds) (tried : List Handle) :
    Pass.Closed kinds (fun _ => True) fun p =>
      Underway now p.roster ∧ Tidy (now.map Prod.fst) tried p.roster where
  refer p id kind props owner hp _ :=
    ⟨hp.1.refer kinds id kind props owner, hp.2.refer hp.1 kinds id kind props owner⟩
  follow p t hp := by
    have hedit : Edit kinds (fun _ => True) p.roster (p.roster.followTree t) :=
      edit_follow p.roster t
    refine ⟨hp.1.edit hedit, ?_⟩
    exact hp.2.grow t.handles (.of_get? (fun _ => rfl) rfl) rfl rfl (followed_followAll _ _)
  draw p e hp := by
    have hedit : Edit kinds (fun _ => True) p.roster (p.roster.noteDrawn e) :=
      edit_noteDrawn p.roster e
    refine ⟨hp.1.edit hedit, ?_⟩
    unfold noteDrawn
    split
    · exact hp.2
    · exact hp.2.grow [] (.of_get? (fun _ => rfl) rfl) rfl rfl (followed_nil _)
  take _ _ hp := hp
  note _ _ hp := hp
  items _ _ _ _ _ _ _ := trivial
  keys _ := trivial

end Tidy

end ViewSync.Roster
