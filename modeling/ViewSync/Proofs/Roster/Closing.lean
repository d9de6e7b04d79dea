import ViewSync.Proofs.Roster.Reach

/-!
# Which components stay

Closing a pass retires the live components that have to leave: those in stream entries that are
lost, and of the others those that were not seen, not even once the trees of the components in
entries that stay were followed. All other live components stay, under their handles.
-/

namespace ViewSync.Roster

variable {r : Roster} {holds : StreamEntry → Bool} {h : Handle} {c : Component}

/-- What is seen in the end, once the components in entries that stay are followed. -/
def seenAtClose (r : Roster) (holds : StreamEntry → Bool) : KeySet Handle :=
  (r.followAll ((r.ownedRecords holds).2.map Component.handle)).seen

/-- Whether a component has to leave when a pass is closed. -/
def leaves (r : Roster) (holds : StreamEntry → Bool) (c : Component) : Bool :=
  match c.owner with
  | some e => r.isLost holds c e
  | none => !(r.seenAtClose holds).contains c.handle

theorem mem_liveRecords : c ∈ r.liveRecords ↔ (∃ h, r.get? h = some c) ∧ c.retired = false := by
  have hslot (h : Handle) : r.slots[h]? = some (some c) ↔ r.get? h = some c := by
    rw [get?_eq_some_iff]
  unfold liveRecords
  rw [List.mem_filter, List.mem_filterMap, Bool.not_eq_true']
  refine and_congr_left fun _ => ⟨?_, ?_⟩
  · rintro ⟨o, ho, hoc⟩
    obtain rfl : o = some c := hoc
    obtain ⟨h, ho⟩ := List.mem_iff_getElem?.mp ho
    exact ⟨h, (hslot h).mp ho⟩
  · rintro ⟨h, hc⟩
    exact ⟨some c, List.mem_of_getElem? ((hslot h).mpr hc), rfl⟩

/-- The ids that closing a pass retires are those of the components that have to leave. -/
theorem mem_stale (hr : r.Arena) (hc : r.get? h = some c) (hlive : c.retired = false) :
    c.id ∈ ((r.ownedRecords holds).1 ++ r.liveRecords.filter fun d =>
        d.owner.isNone && !(r.seenAtClose holds).contains d.handle).map Component.id ↔
      r.leaves holds c = true := by
  -- no other live record has its id
  have hsame {d : Component} (hd : d ∈ r.liveRecords) (hid : d.id = c.id) : d = c := by
    obtain ⟨⟨k, hk⟩, hdlive⟩ := mem_liveRecords.mp hd
    have hmine := (hr.ids_iff c.id h).mpr ⟨c, hc, rfl, hlive⟩
    have hother := (hr.ids_iff c.id k).mpr ⟨d, hk, hid, hdlive⟩
    obtain rfl := Option.some.inj (hmine.symm.trans hother)
    exact Option.some.inj (hk.symm.trans hc)
  have hmem : c ∈ r.liveRecords := mem_liveRecords.mpr ⟨⟨h, hc⟩, hlive⟩
  have hiff : c.id ∈ ((r.ownedRecords holds).1 ++ r.liveRecords.filter fun d =>
      d.owner.isNone && !(r.seenAtClose holds).contains d.handle).map Component.id ↔
      c ∈ (r.ownedRecords holds).1 ++ r.liveRecords.filter fun d =>
        d.owner.isNone && !(r.seenAtClose holds).contains d.handle := by
    refine ⟨fun hin => ?_, List.mem_map_of_mem⟩
    obtain ⟨d, hd, hid⟩ := List.mem_map.mp hin
    have hdlive : d ∈ r.liveRecords := by
      rcases List.mem_append.mp hd with hd | hd
      · unfold ownedRecords at hd
        rw [List.partition_eq_filter_filter] at hd
        exact (List.mem_filter.mp (List.mem_filter.mp hd).1).1
      · exact (List.mem_filter.mp hd).1
    exact hsame hdlive hid ▸ hd
  rw [hiff, List.mem_append, ownedRecords, List.partition_eq_filter_filter, List.mem_filter,
    List.mem_filter, List.mem_filter, leaves]
  cases c.owner with
  | none => simp [hmem]
  | some e => simp [hmem]

variable (holds) in
/-- **A live component stays when a pass is closed unless it has to leave.** -/
theorem handle?_closePass (hr : r.Arena) (hc : r.get? h = some c) (hlive : c.retired = false) :
    (r.closePass holds).2.handle? c.id = if r.leaves holds c then none else some h := by
  have hid : r.handle? c.id = some h := (hr.ids_iff c.id h).mpr ⟨c, hc, rfl, hlive⟩
  have hclose : (r.closePass holds).2.handle? c.id =
      ((r.followAll ((r.ownedRecords holds).2.map Component.handle)).retireAll
        (((r.ownedRecords holds).1 ++ r.liveRecords.filter fun d =>
          d.owner.isNone && !(r.seenAtClose holds).contains d.handle).map Component.id)).handle?
        c.id := rfl
  have hfollow : (r.followAll ((r.ownedRecords holds).2.map Component.handle)).handle? c.id =
      some h := hid
  rw [hclose, handle?_retireAll, hfollow]
  by_cases hleaves : r.leaves holds c = true
  · rw [if_pos ((mem_stale hr hc hlive).mpr hleaves), if_pos hleaves]
  · rw [if_neg fun hin => hleaves ((mem_stale hr hc hlive).mp hin), if_neg hleaves]

/-- A component stays that was seen, in an entry that the client holds if it is in one. -/
theorem leaves_of_seen (hr : r.Arena) (hc : r.get? h = some c) (hseen : h ∈ r.seen)
    (hheld : ∀ e, c.owner = some e → holds e = true) : r.leaves holds c = false := by
  have hh := hr.handle_eq h c hc
  unfold leaves
  split
  · next e howner =>
      unfold isLost
      rw [hheld e howner, hh]
      simp [hseen]
  · have hclose : h ∈ r.seenAtClose holds := (followed_followAll r _).before h hseen
    rw [hh]
    simpa using hclose

/-- What does not have to leave keeps its handle and its tree, and the client is not told of it. -/
theorem kept_of_stays (hr : r.Arena) (hc : r.get? h = some c) (hlive : c.retired = false)
    (hstays : r.leaves holds c = false) :
    (r.closePass holds).2.tell.2.reclaim.handle? c.id = some h ∧
      h ∉ (r.closePass holds).2.tell.1 ∧
      (r.closePass holds).2.tell.2.reclaim.tree? h = r.tree? h := by
  have hid := handle?_closePass holds hr hc hlive
  rw [hstays] at hid
  have hid : (r.closePass holds).2.handle? c.id = some h := hid
  have hgone : h ∉ (r.closePass holds).2.tell.1 := by
    have hclosed := (hr.closePass holds).arena
    obtain ⟨d, hd, -, hdlive⟩ := (hclosed.ids_iff c.id h).mp hid
    rw [mem_tell]
    exact (hclosed.not_retired_iff hd).mpr hdlive
  refine ⟨(handle?_reclaim_tell _ _).trans hid, hgone, ?_⟩
  rw [tree?_reclaim_tell (retires_closePass r holds), if_neg hgone]

/-- Nothing is queued at the end of a pass that has drained the queue. -/
theorem queue_reclaim_close (hqueue : r.queue = []) :
    (r.closePass holds).2.tell.2.reclaim.queue = [] := by
  rw [queue_reclaim_tell, (retires_closePass r holds).queue, hqueue]
  rfl

/-! ## What the client is told -/

/-- Whatever the client is told of at the end of a pass had been retired before, or has to leave. -/
theorem leaves_of_gone (hr : r.Arena) (hgone : h ∈ (r.closePass holds).2.tell.1)
    (hnew : h ∉ r.retired) :
    ∃ c, r.get? h = some c ∧ c.retired = false ∧ r.leaves holds c = true := by
  obtain ⟨c', hc', -⟩ := ((hr.closePass holds).arena.retired_iff h).mp (mem_tell.mp hgone)
  obtain ⟨c, hc, -⟩ := (retires_closePass r holds).record h c' hc'
  have hlive := (hr.not_retired_iff hc).mp hnew
  refine ⟨c, hc, hlive, eq_true_of_ne_false fun hstays => ?_⟩
  exact (kept_of_stays hr hc hlive hstays).2.1 hgone

/-- A record that is retired is there until the client is told. -/
theorem exists_retireAll (ids : List String) (r : Roster) (hc : r.get? h = some c) :
    ∃ c', (r.retireAll ids).get? h = some c' ∧ c'.id = c.id := by
  unfold retireAll
  induction ids generalizing r c with
  | nil => exact ⟨c, hc, rfl⟩
  | cons id ids ih =>
      obtain ⟨d, hd, hid⟩ : ∃ d, (r.retire id).2.get? h = some d ∧ d.id = c.id := by
        unfold retire
        cases r.handle? id with
        | none => exact ⟨c, hc, rfl⟩
        | some k =>
            dsimp only
            cases hk : r.get? k with
            | none => exact ⟨c, hc, rfl⟩
            | some b =>
                have hput := get?_put (lt_of_get? hk) { b with retired := true } h
                change ∃ d, (r.put k _).get? h = some d ∧ _
                rw [hput]
                split
                · next heq =>
                    obtain rfl := Option.some.inj (hk.symm.trans (heq ▸ hc))
                    exact ⟨_, rfl, rfl⟩
                · exact ⟨c, hc, rfl⟩
      obtain ⟨c', hc', hid'⟩ := ih (r.retire id).2 hd
      exact ⟨c', hc', hid'.trans hid⟩

/-- The client is told of everything that has to leave. -/
theorem gone_of_leaves (hr : r.Arena) (hc : r.get? h = some c) (hlive : c.retired = false)
    (hleaves : r.leaves holds c = true) : h ∈ (r.closePass holds).2.tell.1 := by
  have hclosed := (hr.closePass holds).arena
  obtain ⟨c', hc', hid⟩ : ∃ c', (r.closePass holds).2.get? h = some c' ∧ c'.id = c.id :=
    exists_retireAll _ _ hc
  rw [mem_tell, hclosed.retired_iff]
  refine ⟨c', hc', eq_true_of_ne_false fun hret => ?_⟩
  have hid' : (r.closePass holds).2.handle? c.id = some h :=
    (hclosed.ids_iff c.id h).mpr ⟨c', hc', hid, hret⟩
  rw [handle?_closePass holds hr hc hlive, if_pos hleaves] at hid'
  cases hid'

/-- What is left once the client was told: the live records that it was not told of. -/
theorem get?_reclaim_close (hr : r.Arena) : (r.closePass holds).2.tell.2.reclaim.get? h = some c ↔
    r.get? h = some c ∧ c.retired = false ∧ h ∉ (r.closePass holds).2.tell.1 := by
  have hleft {d : Component} (hd : (r.closePass holds).2.tell.2.reclaim.get? h = some d) :=
    get?_reclaim_tell_of_retires (retires_closePass r holds) (hr.closePass holds).arena hd
  refine ⟨hleft, fun ⟨hc, hlive, hgone⟩ => ?_⟩
  obtain ⟨c', hc', -⟩ : ∃ c', (r.closePass holds).2.get? h = some c' ∧ c'.id = c.id :=
    exists_retireAll _ _ hc
  have hafter : (r.closePass holds).2.tell.2.reclaim.get? h = some c' := by
    rw [get?_reclaim_tell, if_neg fun hin => hgone (mem_tell.mpr hin), hc']
  obtain rfl := Option.some.inj ((hleft hafter).1.symm.trans hc)
  exact hafter

/-- What is live when the client was told does not have to leave, and has the tree that it had. -/
theorem stays_of_handle? (hr : r.Arena) {id : String}
    (hid : (r.closePass holds).2.tell.2.reclaim.handle? id = some h) :
    ∃ c, r.get? h = some c ∧ c.retired = false ∧ r.leaves holds c = false ∧
      (r.closePass holds).2.tell.2.reclaim.tree? h = r.tree? h := by
  have hclosed := (hr.closePass holds).reclaim_tell.arena
  obtain ⟨c, hc', rfl, -⟩ := (hclosed.ids_iff id h).mp hid
  obtain ⟨hc, hlive, hgone⟩ := get?_reclaim_tell_of_retires (retires_closePass r holds)
    (hr.closePass holds).arena hc'
  refine ⟨c, hc, hlive, eq_false_of_ne_true fun hleaves => ?_, ?_⟩
  · have hnone := handle?_closePass holds hr hc hlive
    rw [if_pos hleaves, ← handle?_reclaim_tell, hid] at hnone
    cases hnone
  · rw [tree?_reclaim_tell (retires_closePass r holds), if_neg hgone]

/-- **The components that are live once the client was told are those that do not have to
leave.** -/
theorem handle?_reclaim_close (hr : r.Arena) {id : String} :
    (r.closePass holds).2.tell.2.reclaim.handle? id = some h ↔
      ∃ c, r.get? h = some c ∧ c.id = id ∧ c.retired = false ∧ r.leaves holds c = false := by
  constructor
  · intro hid
    obtain ⟨c, hc, hcid, -⟩ := ((hr.closePass holds).reclaim_tell.arena.ids_iff id h).mp hid
    obtain ⟨hc, hlive, hgone⟩ := (get?_reclaim_close hr).mp hc
    refine ⟨c, hc, hcid, hlive, eq_false_of_ne_true fun hleaves => ?_⟩
    exact hgone (gone_of_leaves hr hc hlive hleaves)
  · rintro ⟨c, hc, rfl, hlive, hstays⟩
    exact (kept_of_stays hr hc hlive hstays).1

/-- What stays is seen in the end, in a stream entry or not. -/
theorem seenAtClose_of_stays (hr : r.Arena) (hc : r.get? h = some c) (hlive : c.retired = false)
    (hstays : r.leaves holds c = false) : h ∈ r.seenAtClose holds := by
  have hh := hr.handle_eq h c hc
  unfold leaves at hstays
  split at hstays
  · next e howner =>
      -- one in an entry that stays is followed
      refine (followed_followAll r _).frontier h (List.mem_map.mpr ⟨c, ?_, hh⟩)
      unfold ownedRecords
      rw [List.partition_eq_filter_filter, List.mem_filter, List.mem_filter]
      refine ⟨⟨mem_liveRecords.mpr ⟨⟨h, hc⟩, hlive⟩, ?_⟩, ?_⟩
      · rw [howner]
        rfl
      · simp [howner, hstays]
  · rw [hh] at hstays
    simpa using hstays

/-- What a component refers to that is seen in the end is seen in the end as well, if this is so of
what was seen before. -/
theorem mem_seenAtClose_of_tree {k : Handle} {t : Tree}
    (hseen : ∀ k ∈ r.seen, ∀ t, r.tree? k = some t → ∀ h ∈ t.handles, h ∈ r.seen)
    (hk : k ∈ r.seenAtClose holds) (ht : r.tree? k = some t) (hin : h ∈ t.handles) :
    h ∈ r.seenAtClose holds := by
  have hfollowed := followed_followAll r ((r.ownedRecords holds).2.map Component.handle)
  by_cases hold : k ∈ r.seen
  · exact hfollowed.before h (hseen k hold t ht h hin)
  · exact hfollowed.closed k hk hold t ht h hin

/-- Without components in stream entries, nothing more is followed at the end. -/
theorem seenAtClose_of_unowned (hr : ∀ h c, r.get? h = some c → c.owner = none) :
    r.seenAtClose holds = r.seen := by
  have hnone : r.liveRecords.filter (·.owner.isSome) = [] := by
    rw [List.filter_eq_nil_iff]
    intro c hc
    obtain ⟨⟨k, hk⟩, -⟩ := mem_liveRecords.mp hc
    simp [hr k c hk]
  unfold seenAtClose ownedRecords
  rw [hnone]
  exact reach_nil _ _ _

end ViewSync.Roster
