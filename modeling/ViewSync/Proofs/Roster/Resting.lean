import ViewSync.Proofs.Roster.Trace

/-!
# Between passes

What may happen to a roster while no pass is open: components are referred to, take props, and are
retired; a pass that went well is closed, and the client is told of the handles that are gone. All
of it leaves a roster at rest.
-/

namespace ViewSync.Roster

/-! ## Retiring -/

/-- Everything that the end of a pass has to reset is as in another roster. -/
def SameMarks (r r' : Roster) : Prop :=
  r'.undo = r.undo ∧ r'.drawn = r.drawn ∧ r'.stillborn = r.stillborn

theorem retire_of_handle? {r : Roster} (hr : r.Arena) {id : String} {h : Handle}
    (hid : r.handle? id = some h) :
    ∃ c, r.get? h = some c ∧ c.id = id ∧ c.retired = false ∧
      r.retire id = (some h, { r.put h { c with retired := true } with
        ids := r.ids.erase id
        seen := r.seen.erase h
        retired := r.retired ++ [h] }) := by
  obtain ⟨c, hc, hcid, hlive⟩ := (hr.ids_iff id h).mp hid
  refine ⟨c, hc, hcid, hlive, ?_⟩
  unfold retire
  rw [hid]
  simp only [hc]
  rfl

theorem retire_of_none {r : Roster} {id : String} (hid : r.handle? id = none) :
    r.retire id = (none, r) := by
  unfold retire
  rw [hid]

theorem sameMarks_retire (r : Roster) (id : String) : SameMarks r (r.retire id).2 := by
  unfold retire
  cases r.handle? id with
  | none => exact ⟨rfl, rfl, rfl⟩
  | some h =>
      dsimp only
      cases r.get? h with
      | none => exact ⟨rfl, rfl, rfl⟩
      | some c => exact ⟨rfl, rfl, rfl⟩

theorem unmount_snd (r : Roster) (id : String) : (r.unmount id).2 = (r.retire id).2 := by
  unfold unmount
  split
  · next h r' heq => rw [heq]
  · next r' heq => rw [heq]

theorem ids_retire (r : Roster) (id : String) : (r.retire id).2.ids = r.ids.erase id := by
  unfold retire
  cases hid : r.handle? id with
  | none => exact (Keyed.erase_of_get?_eq_none hid).symm
  | some h =>
      dsimp only
      cases r.get? h <;> rfl

/-- What is retired is not live, and all else is as live as before. -/
theorem handle?_retireAll (ids : List String) (r : Roster) (id : String) :
    (r.retireAll ids).handle? id = if id ∈ ids then none else r.handle? id := by
  unfold retireAll
  induction ids generalizing r with
  | nil => simp
  | cons k ids ih =>
      rw [List.foldl_cons, ih]
      simp only [handle?, ids_retire, Keyed.get?_erase, List.mem_cons]
      by_cases hid : id = k <;> simp [hid]

theorem Arena.retire {r : Roster} (hr : r.Arena) (id : String) : (r.retire id).2.Arena := by
  cases hid : r.handle? id with
  | none =>
      rw [retire_of_none hid]
      exact hr
  | some h =>
      obtain ⟨c, hc, hcid, hlive, heq⟩ := retire_of_handle? hr hid
      rw [heq]
      have hget := get?_put (lt_of_get? hc) { c with retired := true }
      refine ⟨?_, ?_, ?_, hr.spare_sorted, hr.spare_empty.put hc _, ?_, hr.told⟩
      · intro k d hd
        have hd := (hget k).symm.trans hd
        split at hd
        · next hk =>
            obtain rfl := Option.some.inj hd
            rw [hk]
            exact hr.handle_eq h c hc
        · exact hr.handle_eq k d hd
      · exact Keyed.sorted_erase hr.ids_sorted id
      · intro id' k
        change (r.ids.erase id).get? id' = some k ↔
          ∃ d, (r.put h { c with retired := true }).get? k = some d ∧ d.id = id' ∧ d.retired = false
        rw [Keyed.get?_erase, hget]
        by_cases hk : k = h
        · subst hk
          -- a record is listed under its own id only
          have hother : id' ≠ id → r.ids.get? id' ≠ some k := by
            intro hne hold
            obtain ⟨d, hd, hdid, _⟩ := (hr.ids_iff id' k).mp hold
            rw [hc] at hd
            obtain rfl := Option.some.inj hd
            exact hne (hdid.symm.trans hcid)
          by_cases hid' : id' = id
          · simp [hid']
          · simp [hid', hother hid']
        · rw [if_neg hk, ← hr.ids_iff]
          by_cases hid' : id' = id
          · have hold : r.ids.get? id' = some h := hid' ▸ hid
            rw [if_pos hid', hold]
            simp [Ne.symm hk]
          · rw [if_neg hid']
      · intro k
        change k ∈ r.retired ++ [h] ↔
          ∃ d, (r.put h { c with retired := true }).get? k = some d ∧ d.retired = true
        rw [hget, List.mem_append, List.mem_singleton, hr.retired_iff]
        by_cases hk : k = h
        · simp [hk]
        · simp [hk]

theorem Arena.retireAll {r : Roster} (hr : r.Arena) (ids : List String) :
    (r.retireAll ids).Arena ∧ SameMarks r (r.retireAll ids) := by
  unfold Roster.retireAll
  induction ids generalizing r with
  | nil => exact ⟨hr, rfl, rfl, rfl⟩
  | cons id ids ih =>
      obtain ⟨hundo, hdrawn, hstillborn⟩ := sameMarks_retire r id
      obtain ⟨harena, hundo', hdrawn', hstillborn'⟩ := ih (hr.retire id)
      exact ⟨harena, hundo'.trans hundo, hdrawn'.trans hdrawn, hstillborn'.trans hstillborn⟩

/-- Records may have been retired, and nothing else. -/
structure Retires (r r' : Roster) : Prop where
  /-- No tree is touched. -/
  tree : ∀ h, r'.tree? h = r.tree? h
  /-- A record is what it was, but for being retired. -/
  record : ∀ h c', r'.get? h = some c' → ∃ c, r.get? h = some c ∧
    c' = { c with retired := c'.retired } ∧ (c'.retired = false → c.retired = false)
  /-- The queue is as it was. -/
  queue : r'.queue = r.queue

theorem Retires.refl (r : Roster) : Retires r r :=
  ⟨fun _ => rfl, fun _ c' hc => ⟨c', hc, rfl, fun h => h⟩, rfl⟩

theorem Retires.trans {r r₁ r₂ : Roster} (h₁ : Retires r r₁) (h₂ : Retires r₁ r₂) :
    Retires r r₂ where
  tree h := (h₂.tree h).trans (h₁.tree h)
  record h c₂ hc₂ := by
    obtain ⟨c₁, hc₁, heq₁, hlive₁⟩ := h₂.record h c₂ hc₂
    obtain ⟨c, hc, heq, hlive⟩ := h₁.record h c₁ hc₁
    refine ⟨c, hc, ?_, fun hl => hlive (hlive₁ hl)⟩
    rw [heq₁, heq]
  queue := h₂.queue.trans h₁.queue

theorem retires_retire (r : Roster) (id : String) : Retires r (r.retire id).2 := by
  unfold retire
  cases r.handle? id with
  | none => exact .refl r
  | some h =>
      dsimp only
      cases hc : r.get? h with
      | none => exact ⟨fun _ => rfl, fun _ c' hc' => ⟨c', hc', rfl, fun h => h⟩, rfl⟩
      | some c =>
          have hget := get?_put (lt_of_get? hc) { c with retired := true }
          refine ⟨fun k => ?_, fun k c' hc' => ?_, rfl⟩
          · change ((r.put h { c with retired := true }).get? k).bind Component.tree = r.tree? k
            rw [hget]
            split
            · next hk =>
                rw [hk, tree?, hc]
                rfl
            · rfl
          · have hc' := (hget k).symm.trans hc'
            split at hc'
            · next hk =>
                obtain rfl := Option.some.inj hc'
                exact ⟨c, hk ▸ hc, rfl, fun h => by cases h⟩
            · exact ⟨c', hc', rfl, fun h => h⟩

theorem retires_retireAll (ids : List String) (r : Roster) : Retires r (r.retireAll ids) := by
  unfold retireAll
  induction ids generalizing r with
  | nil => exact .refl r
  | cons id ids ih => exact (retires_retire r id).trans (ih _)

theorem retires_unmount (r : Roster) (id : String) : Retires r (r.unmount id).2 := by
  rw [unmount_snd]
  exact retires_retire r id

theorem retires_unmountEach (r : Roster) : Retires r r.unmountEach.2 :=
  retires_retireAll r.ids.keys r

/-- Closing a pass retires components, and otherwise changes marks only. -/
theorem retires_closePass (r : Roster) (holds : StreamEntry → Bool) :
    Retires r (r.closePass holds).2 := by
  unfold closePass
  dsimp only
  generalize hf : r.followAll _ = r₁
  generalize List.map Component.id _ = ids
  have hfollow : Retires r r₁ := by
    rw [← hf]
    exact ⟨fun _ => rfl, fun _ c' hc' => ⟨c', hc', rfl, fun h => h⟩, rfl⟩
  have hall := hfollow.trans (retires_retireAll ids r₁)
  exact ⟨hall.tree, hall.record, hall.queue⟩

/-! ## Telling the client -/

theorem mem_insertInOrder {h k : Handle} {hs : List Handle} :
    k ∈ insertInOrder h hs ↔ k = h ∨ k ∈ hs := by
  induction hs with
  | nil => simp [insertInOrder]
  | cons h' hs ih =>
      unfold insertInOrder
      split
      · simp
      · rw [List.mem_cons, ih, List.mem_cons]
        exact or_left_comm

theorem mem_inOrder {k : Handle} {hs : List Handle} : k ∈ inOrder hs ↔ k ∈ hs := by
  unfold inOrder
  induction hs with
  | nil => simp
  | cons h hs ih => rw [List.foldr_cons, mem_insertInOrder, ih, List.mem_cons]

theorem mem_insertAll {k : Handle} {s : KeySet Handle} {hs : List Handle} :
    k ∈ s.insertAll hs ↔ k ∈ s ∨ k ∈ hs := by
  induction hs generalizing s with
  | nil => simp [KeySet.insertAll]
  | cons h hs ih =>
      have hstep : s.insertAll (h :: hs) = KeySet.insertAll (KeySet.insert s h) hs := rfl
      rw [hstep, ih, KeySet.mem_insert, List.mem_cons, or_assoc, or_left_comm]

theorem vacate_all (hs : List Handle) (r : Roster) :
    ∃ slots, hs.foldl vacate r = { r with slots } ∧ slots.length = r.slots.length ∧
      (∀ k, (hs.foldl vacate r).get? k = if k ∈ hs then none else r.get? k) ∧
      ∀ k, slots[k]? = if k ∈ hs then (r.slots[k]?).map fun _ => none else r.slots[k]? := by
  induction hs generalizing r with
  | nil => exact ⟨r.slots, rfl, rfl, fun _ => by simp, fun _ => by simp⟩
  | cons h hs ih =>
      obtain ⟨slots, heq, hlen, hget, hslot⟩ := ih (r.vacate h)
      refine ⟨slots, heq, hlen.trans (length_vacate r h), fun k => ?_, fun k => ?_⟩
      · rw [List.foldl_cons, hget, get?_vacate]
        by_cases hk : k = h
        · simp [hk]
        · simp [hk]
      · rw [hslot]
        change (if k ∈ hs then ((r.slots.set h none)[k]?).map fun _ => none
          else (r.slots.set h none)[k]?) = _
        by_cases hk : k = h
        · subst hk
          by_cases hlt : k < r.slots.length
          · simp [hlt]
          · have hout : r.slots[k]? = none := List.getElem?_eq_none (Nat.le_of_not_lt hlt)
            have hout' : (r.slots.set k none)[k]? = none := by
              rw [List.getElem?_eq_none_iff, List.length_set]
              exact Nat.le_of_not_lt hlt
            simp [hout, hout']
        · rw [List.getElem?_set_ne (Ne.symm hk)]
          simp [hk]

/-- What is left once the client was told of the handles that are gone. -/
theorem get?_reclaim_tell (r : Roster) (k : Handle) :
    r.tell.2.reclaim.get? k = if k ∈ r.retired then none else r.get? k := by
  obtain ⟨slots, heq, hlen, hget, hslot⟩ := vacate_all (inOrder r.retired) r
  have htold : r.tell.2.reclaim.get? k = ((inOrder r.retired).foldl vacate r).get? k := by
    unfold tell reclaim
    rfl
  rw [htold, hget]
  simp only [mem_inOrder]

theorem length_reclaim_tell (r : Roster) :
    r.tell.2.reclaim.slots.length = r.slots.length := by
  obtain ⟨slots, heq, hlength, -⟩ := vacate_all (inOrder r.retired) r
  change ((inOrder r.retired).foldl vacate r).slots.length = r.slots.length
  rw [heq]
  exact hlength

/-- Whatever was retired is to spare once the client was told. -/
theorem spare_reclaim_tell {r : Roster} (htold : r.told = []) :
    r.tell.2.reclaim.spare = r.spare.insertAll (inOrder r.retired) := by
  obtain ⟨slots, heq, -⟩ := vacate_all (inOrder r.retired) r
  change ((inOrder r.retired).foldl vacate r).spare.insertAll
    (((inOrder r.retired).foldl vacate r).told ++ inOrder r.retired) = _
  rw [heq, htold]
  rfl

theorem Arena.reclaim_tell {r : Roster} (hr : r.Arena) : r.tell.2.reclaim.Arena := by
  have hget := get?_reclaim_tell r
  obtain ⟨slots, heq, hlen, _, hslot⟩ := vacate_all (inOrder r.retired) r
  have hids : r.tell.2.reclaim.ids = r.ids := by
    change ((inOrder r.retired).foldl vacate r).ids = r.ids
    rw [heq]
  have hslots : r.tell.2.reclaim.slots = slots := by
    change ((inOrder r.retired).foldl vacate r).slots = slots
    rw [heq]
  have hspare := spare_reclaim_tell hr.told
  refine ⟨?_, ?_, ?_, ?_, ?_, ?_, rfl⟩
  · intro k c hc
    rw [hget] at hc
    split at hc
    · cases hc
    · exact hr.handle_eq k c hc
  · rw [hids]
    exact hr.ids_sorted
  · intro id k
    rw [hids, hr.ids_iff, hget]
    split
    · next hk =>
        -- a record that is live has not been retired
        constructor
        · rintro ⟨c, hc, -, hlive⟩
          exact absurd hk ((hr.not_retired_iff hc).mpr hlive)
        · rintro ⟨c, hc, -⟩
          cases hc
    · exact Iff.rfl
  · rw [hspare]
    exact KeySet.sorted_insertAll hr.spare_sorted _
  · intro k hk
    rw [hspare, mem_insertAll, mem_inOrder] at hk
    rw [hslots, hslot]
    rcases hk with hk | hk
    · rw [hr.spare_empty k hk]
      split <;> rfl
    · obtain ⟨d, hd, _⟩ := (hr.retired_iff k).mp hk
      rw [get?_eq_some_iff] at hd
      rw [if_pos (mem_inOrder.mpr hk), hd]
      rfl
  · intro k
    change k ∈ ([] : List Handle) ↔ _
    rw [hget]
    split
    · simp
    · next hk =>
        have hnot : ¬∃ c, r.get? k = some c ∧ c.retired = true := fun h =>
          hk ((hr.retired_iff k).mpr h)
        simpa using hnot

theorem mem_tell {r : Roster} {h : Handle} : h ∈ r.tell.1 ↔ h ∈ r.retired := mem_inOrder

/-- Once the client was told, the records left are those of live components, as they were. -/
theorem get?_reclaim_tell_of_retires {r r' : Roster} (hr : Retires r r') (harena : r'.Arena)
    {h : Handle} {c : Component} (hc : r'.tell.2.reclaim.get? h = some c) :
    r.get? h = some c ∧ c.retired = false ∧ h ∉ r'.tell.1 := by
  rw [get?_reclaim_tell] at hc
  split at hc
  · cases hc
  · next hnot =>
      obtain ⟨d, hd, heq, hlive⟩ := hr.record h c hc
      have hret : c.retired = false := (harena.not_retired_iff hc).mp hnot
      have hdret := hlive hret
      refine ⟨?_, hret, fun hin => hnot (mem_tell.mp hin)⟩
      rw [hd, heq, hret, ← hdret]

theorem tree?_reclaim_tell {r r' : Roster} (hr : Retires r r') (h : Handle) :
    r'.tell.2.reclaim.tree? h = if h ∈ r'.tell.1 then none else r.tree? h := by
  rw [tree?, get?_reclaim_tell, ← hr.tree h]
  simp only [mem_tell]
  split <;> rfl

theorem queue_reclaim_tell (r : Roster) :
    r.tell.2.reclaim.queue = r.queue.filter (· ∉ r.tell.1) := by
  obtain ⟨slots, heq, -, -, -⟩ := vacate_all (inOrder r.retired) r
  change ((inOrder r.retired).foldl vacate r).queue.filter (· ∉ inOrder r.retired) = _
  rw [heq]
  rfl

theorem handle?_reclaim_tell (r : Roster) (id : String) :
    r.tell.2.reclaim.handle? id = r.handle? id := by
  obtain ⟨slots, heq, -⟩ := vacate_all (inOrder r.retired) r
  change ((inOrder r.retired).foldl vacate r).handle? id = r.handle? id
  rw [heq]
  rfl

theorem seen_reclaim_tell (r : Roster) : r.tell.2.reclaim.seen = r.seen := by
  obtain ⟨slots, heq, -⟩ := vacate_all (inOrder r.retired) r
  change ((inOrder r.retired).foldl vacate r).seen = r.seen
  rw [heq]

theorem sameMarks_reclaim_tell (r : Roster) : SameMarks r r.tell.2.reclaim := by
  obtain ⟨slots, heq, -, -, -⟩ := vacate_all (inOrder r.retired) r
  refine ⟨?_, ?_, ?_⟩
  · change ((inOrder r.retired).foldl vacate r).undo = r.undo
    rw [heq]
  · change ((inOrder r.retired).foldl vacate r).drawn = r.drawn
    rw [heq]
  · change ((inOrder r.retired).foldl vacate r).stillborn = r.stillborn
    rw [heq]

/-! ## At rest -/

theorem resting_ofConfig (c : Config) : Resting (ofConfig c) := by
  refine ⟨⟨?_, List.Pairwise.nil, ?_, List.Pairwise.nil, List.forall_mem_nil _, ?_, rfl⟩, rfl, rfl,
    rfl⟩
  · intro h c hc
    simp [ofConfig, get?] at hc
  · intro id h
    simp [ofConfig, get?, Keyed.get?]
  · intro h
    simp [ofConfig, get?]

/-- Closing a pass puts the roster at rest, whatever the pass did to it. -/
theorem Arena.closePass {r : Roster} (hr : r.Arena) (holds : StreamEntry → Bool) :
    Resting (r.closePass holds).2 := by
  unfold Roster.closePass
  dsimp only
  generalize hf : r.followAll _ = r₁
  have harena : r₁.Arena := by
    rw [← hf]
    exact hr.congr rfl rfl rfl rfl rfl
  generalize List.map Component.id _ = ids
  obtain ⟨hretired, -⟩ := harena.retireAll ids
  exact ⟨hretired.congr rfl rfl rfl rfl rfl, rfl, rfl, rfl⟩

namespace Resting

variable {r : Roster}

theorem of_sameMarks {r' : Roster} (hr : Resting r) (harena : r'.Arena) (hmarks : SameMarks r r') :
    Resting r' :=
  ⟨harena, hmarks.1.trans hr.undo, hmarks.2.1.trans hr.drawn, hmarks.2.2.trans hr.stillborn⟩

theorem reclaim_tell (hr : Resting r) : Resting r.tell.2.reclaim :=
  hr.of_sameMarks hr.arena.reclaim_tell (sameMarks_reclaim_tell r)

theorem refer (hr : Resting r) (kinds : Kinds) (id : String) (kind : KindRef) (props : Fields)
    (owner : Option StreamEntry) : Resting (r.refer kinds id kind props owner).2 := by
  have hedit : Edit kinds (fun _ => True) r (r.refer kinds id kind props owner).2 :=
    edit_refer r id kind owner fun _ _ => trivial
  have harena := hr.arena.edit hedit
  have hspec := refer_spec kinds r id kind props owner
  generalize (r.refer kinds id kind props owner).1 = x at hspec
  generalize (r.refer kinds id kind props owner).2 = r' at hspec harena ⊢
  have hover (h : Handle) (c : Component) : (r.handOver kinds h c props owner).undo = r.undo := by
    change r.undo.map _ = r.undo
    rw [hr.undo]
    rfl
  have hmarks : SameMarks r r' := by
    cases hspec with
    | refused e => exact ⟨rfl, rfl, rfl⟩
    | stillborn => exact ⟨rfl, rfl, rfl⟩
    | inside => exact ⟨rfl, rfl, rfl⟩
    | @failed h c => exact ⟨hover h c, rfl, rfl⟩
    | @unchanged h c => exact ⟨hover h c, rfl, rfl⟩
    | @stale h c =>
        obtain ⟨queue, hq, -⟩ := schedule_eq ((r.handOver kinds h c props owner).see h) h
        rw [hq]
        exact ⟨hover h c, rfl, rfl⟩
    | @created a b =>
        obtain ⟨queue, hq, -⟩ := schedule_eq ((r.create id kind b owner).see r.takeHandle.1)
          r.takeHandle.1
        rw [hq, create_rest, see]
        refine ⟨?_, rfl, rfl⟩
        rw [hr.undo]
        rfl
  exact hr.of_sameMarks harena hmarks

theorem unmount (hr : Resting r) (id : String) : Resting (r.unmount id).2 := by
  rw [unmount_snd]
  exact hr.of_sameMarks (hr.arena.retire id) (sameMarks_retire r id)

theorem unmountEach (hr : Resting r) : Resting r.unmountEach.2 := by
  obtain ⟨harena, hmarks⟩ := hr.arena.retireAll r.ids.keys
  exact hr.of_sameMarks harena hmarks

theorem deliver (hr : Resting r) (kinds : Kinds) (id : String) (props : Fields) :
    Resting (r.deliver kinds id props).2 := by
  have hedit : Edit kinds (fun _ => True) r (r.deliver kinds id props).2 :=
    edit_deliver hr.undo id fun _ _ => trivial
  refine hr.of_sameMarks (hr.arena.edit hedit) ?_
  have hschedule (r : Roster) (h : Handle) : SameMarks r (r.schedule h) := by
    obtain ⟨queue, hq, -⟩ := schedule_eq r h
    rw [hq]
    exact ⟨rfl, rfl, rfl⟩
  unfold Roster.deliver
  cases r.handle? id with
  | none => exact ⟨rfl, rfl, rfl⟩
  | some h =>
      dsimp only
      cases r.get? h with
      | none => exact ⟨rfl, rfl, rfl⟩
      | some c =>
          dsimp only
          split
          · exact ⟨rfl, rfl, rfl⟩
          · split
            · exact hschedule (r.put h _) h
            · exact ⟨rfl, rfl, rfl⟩

end Resting

/-- Once everything is retired and told, no record is left. -/
theorem get?_unmountEach {r : Roster} (hr : r.Resting) (h : Handle) :
    r.unmountEach.2.tell.2.reclaim.get? h = none := by
  cases hc : r.unmountEach.2.tell.2.reclaim.get? h with
  | none => rfl
  | some c =>
      have hrest := hr.unmountEach
      obtain ⟨hold, hlive, -⟩ :=
        get?_reclaim_tell_of_retires (retires_unmountEach r) hrest.arena hc
      have hafter := (hrest.reclaim_tell.arena.ids_iff c.id h).mpr ⟨c, hc, rfl, hlive⟩
      have hbefore := (hr.arena.ids_iff c.id h).mpr ⟨c, hold, rfl, hlive⟩
      have hnone : r.unmountEach.2.handle? c.id = none := by
        refine (handle?_retireAll r.ids.keys r c.id).trans (if_pos ?_)
        exact Keyed.mem_keys_iff_has.mpr (by rw [Keyed.has, hbefore]; rfl)
      exact absurd (hafter.symm.trans ((handle?_reclaim_tell _ _).trans hnone))
        (Option.some_ne_none h)

end ViewSync.Roster
