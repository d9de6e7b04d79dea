import ViewSync.Proofs.Roster.Growth
import ViewSync.Proofs.Roster.Patches
import ViewSync.Proofs.Roster.Resting

/-!
# How handles are given out

A handle is in use while a component has it that is live, or that is retired and of which the client
has yet to be told. No slot is left empty without its handle being to spare, so that a new component
always gets the least handle that is not in use.

In the course of a pass handles come into use, and none goes out of use before the queue is drained:
what is retired was so before the pass, and components whose first render failed keep their handles
until then. What was born in a pass, in order, therefore tells which handles were in use at each
birth: those from before the pass, and those of the births before.
-/

namespace ViewSync.Roster

variable {r r' : Roster} {h : Handle}

/-! ## Handles in use -/

/-- No component has the handle, live or retired. -/
def Unused (r : Roster) (h : Handle) : Prop :=
  (∀ id, r.handle? id ≠ some h) ∧ h ∉ r.retired

/-- The least handle that is not in use, when some have been given out since. -/
def IsNext (r : Roster) (born : List Handle) (h : Handle) : Prop :=
  (r.Unused h ∧ h ∉ born) ∧ ∀ k, r.Unused k → k ∉ born → h ≤ k

/-- Each handle was the next one when those before it had been given out. -/
def InTurn (r : Roster) (born : List Handle) : Prop :=
  ∀ before h after, born = before ++ h :: after → r.IsNext before h

/-- The handles in use are those that have a record. -/
theorem Arena.unused_iff (hr : r.Arena) : r.Unused h ↔ r.get? h = none := by
  constructor
  · rintro ⟨hlive, hretired⟩
    refine Option.eq_none_iff_forall_ne_some.mpr fun c hc => hlive c.id ?_
    exact (hr.ids_iff c.id h).mpr ⟨c, hc, rfl, (hr.not_retired_iff hc).mp hretired⟩
  · intro hnone
    refine ⟨fun id hid => ?_, fun hretired => ?_⟩
    · obtain ⟨c, hc, -⟩ := (hr.ids_iff id h).mp hid
      rw [hnone] at hc
      cases hc
    · obtain ⟨c, hc, -⟩ := (hr.retired_iff h).mp hretired
      rw [hnone] at hc
      cases hc

theorem inTurn_nil (r : Roster) : r.InTurn [] := by
  intro before h after heq
  exact absurd (List.append_eq_nil_iff.mp heq.symm).2 (List.cons_ne_nil h after)

theorem InTurn.concat {born : List Handle} (ht : r.InTurn born) (hh : r.IsNext born h) :
    r.InTurn (born ++ [h]) := by
  intro before k after heq
  rcases List.eq_nil_or_concat after with rfl | ⟨rest, last, rfl⟩
  · obtain ⟨rfl, hlast⟩ := List.append_inj' heq rfl
    obtain rfl := List.singleton_inj.mp hlast
    exact hh
  · have hsplit : born ++ [h] = (before ++ k :: rest) ++ [last] := by simpa using heq
    exact ht before k rest (List.append_inj' hsplit rfl).1

/-! ## No slot is wasted -/

/-- Whatever slot is empty has its handle to spare. -/
def Packed (r : Roster) : Prop := ∀ h < r.slots.length, r.get? h = none → h ∈ r.spare

/-- The same handles have records, and the same are to spare. -/
structure SameUse (r r' : Roster) : Prop where
  /-- There are as many slots. -/
  length : r'.slots.length = r.slots.length
  /-- The same slots are empty. -/
  records : ∀ h, r'.get? h = none ↔ r.get? h = none
  /-- The same handles are to spare. -/
  spare : r'.spare = r.spare

theorem SameUse.of_slots (hslots : r'.slots = r.slots) (hspare : r'.spare = r.spare) :
    SameUse r r' :=
  ⟨congrArg List.length hslots, fun h => by rw [get?, get?, hslots], hspare⟩

theorem SameUse.refl (r : Roster) : SameUse r r := .of_slots rfl rfl

theorem SameUse.trans {r'' : Roster} (h₁ : SameUse r r') (h₂ : SameUse r' r'') :
    SameUse r r'' where
  length := h₂.length.trans h₁.length
  records h := (h₂.records h).trans (h₁.records h)
  spare := h₂.spare.trans h₁.spare

theorem sameUse_put {c : Component} (hc : r.get? h = some c) (c' : Component) :
    SameUse r (r.put h c') := by
  refine ⟨length_put r h c', fun k => ?_, rfl⟩
  rw [get?_put (lt_of_get? hc)]
  split
  · next hk => simp [hk, hc]
  · exact Iff.rfl

theorem sameUse_handOver {kinds : Kinds} {c : Component} (hc : r.get? h = some c) (props : Fields)
    (owner : Option StreamEntry) : SameUse r (r.handOver kinds h c props owner) :=
  have hkept : SameUse r (r.keepState c) := .of_slots rfl rfl
  hkept.trans (sameUse_put (r := r.keepState c) hc _)

theorem sameUse_retire (r : Roster) (id : String) : SameUse r (r.retire id).2 := by
  unfold retire
  cases r.handle? id with
  | none => exact .refl r
  | some h =>
      dsimp only
      cases hc : r.get? h with
      | none => exact .of_slots rfl rfl
      | some c => exact (sameUse_put hc { c with retired := true }).trans (.of_slots rfl rfl)

theorem sameUse_retireAll (ids : List String) (r : Roster) : SameUse r (r.retireAll ids) :=
  List.foldlRecOn ids _ (.refl r) fun _ hr id _ => hr.trans (sameUse_retire _ id)

theorem sameUse_deliver (r : Roster) (kinds : Kinds) (id : String) (props : Fields) :
    SameUse r (r.deliver kinds id props).2 ∧
      ∀ h ∈ (r.deliver kinds id props).2.queue, h ∈ r.queue ∨ r.get? h ≠ none := by
  unfold deliver
  cases r.handle? id with
  | none => exact ⟨.refl r, fun _ hh => .inl hh⟩
  | some h =>
      dsimp only
      cases hc : r.get? h with
      | none => exact ⟨.refl r, fun _ hh => .inl hh⟩
      | some c =>
          have hput := sameUse_put hc
            { c with assigns := ((kinds c.kind.key).update props c.assigns).1 }
          dsimp only
          split
          · exact ⟨hput, fun _ hh => .inl hh⟩
          · split
            · refine ⟨?_, fun k hk => (mem_queue_schedule hk).imp_right fun heq hnone => ?_⟩
              · obtain ⟨queue, hq, -⟩ := schedule_eq (r.put h
                  { c with assigns := ((kinds c.kind.key).update props c.assigns).1 }) h
                rw [hq]
                exact hput.trans (.of_slots rfl rfl)
              · rw [heq, hc] at hnone
                cases hnone
            · exact ⟨hput, fun _ hh => .inl hh⟩

theorem sameUse_closePass (r : Roster) (holds : StreamEntry → Bool) :
    SameUse r (r.closePass holds).2 := by
  have hfollow : SameUse r (r.followAll ((r.ownedRecords holds).2.map Component.handle)) :=
    .of_slots rfl rfl
  exact (hfollow.trans (sameUse_retireAll _ _)).trans (.of_slots rfl rfl)

theorem sameUse_patches (former : FormerTrees) (r : Roster) :
    SameUse r (r.patches former).2 := by
  induction former generalizing r with
  | nil => exact .refl r
  | cons e former ih =>
      unfold patches
      split
      · next c hc =>
          split
          · exact ih r
          · next t _ =>
              have hput := sameUse_put hc { c with tree := some (r.blankStillborn t) }
              dsimp only
              split
              · exact hput
              · exact hput.trans (ih _)
      · exact ih r

namespace Packed

theorem congr (hp : r.Packed) (hsame : SameUse r r') : r'.Packed := by
  intro h hlt hnone
  rw [hsame.spare]
  exact hp h (hsame.length ▸ hlt) ((hsame.records h).mp hnone)

/-- **A new component gets the least handle without a record.** -/
theorem takeHandle_le (hp : r.Packed) (hr : r.Arena) (hnone : r.get? h = none) :
    r.takeHandle.1 ≤ h := by
  rcases takeHandle_cases r with ⟨rest, hspare, -⟩ | ⟨hspare, hlength, -⟩
  · rcases Nat.lt_or_ge h r.slots.length with hlt | hge
    · have hin := hp h hlt hnone
      have hsorted := hr.spare_sorted
      rw [hspare] at hin hsorted
      rcases List.mem_cons.mp hin with heq | hin
      · exact Nat.le_of_eq heq.symm
      · exact Nat.le_of_lt ((List.pairwise_cons.mp hsorted).1 h hin)
    · have hempty := hr.spare_empty _ (hspare ▸ List.mem_cons_self)
      have hlt := (List.getElem?_eq_some_iff.mp hempty).1
      exact Nat.le_trans (Nat.le_of_lt hlt) hge
  · rw [hlength]
    refine Nat.le_of_not_lt fun hlt => ?_
    have hin := hp h hlt hnone
    rw [hspare] at hin
    cases hin

theorem isNext_takeHandle (hp : r.Packed) (hr : r.Arena) : r.IsNext [] r.takeHandle.1 :=
  ⟨⟨hr.unused_iff.mpr (get?_takeHandle hr.spare_empty), List.not_mem_nil⟩,
    fun _ hk _ => hp.takeHandle_le hr (hr.unused_iff.mp hk)⟩

theorem create (hp : r.Packed) (hr : r.Arena) (id : String) (kind : KindRef) (assigns : Assigns)
    (owner : Option StreamEntry) : (r.create id kind assigns owner).Packed := by
  intro h hlt hnone
  have hlength : (r.create id kind assigns owner).slots.length = r.takeHandle.2.slots.length :=
    List.length_set
  have hspare : (r.create id kind assigns owner).spare = r.spare.tail := by rw [create_rest]
  rw [hlength] at hlt
  rw [get?_create hr.spare_empty] at hnone
  split at hnone
  · cases hnone
  · next hne =>
      rw [hspare]
      rcases takeHandle_cases r with ⟨rest, hcons, hroster⟩ | ⟨hnil, hnew, hroster⟩
      · rw [hroster] at hlt
        have hin := hp h hlt hnone
        rw [hcons] at hin ⊢
        exact (List.mem_cons.mp hin).resolve_left hne
      · -- the only slot that was added has the new record in it
        rw [hroster, List.length_append, List.length_singleton] at hlt
        have hold : h < r.slots.length :=
          Nat.lt_of_le_of_ne (Nat.le_of_lt_succ hlt) (hnew ▸ hne)
        have hin := hp h hold hnone
        rw [hnil] at hin
        cases hin

/-- **Every edit leaves no slot wasted.** -/
theorem edit {kinds : Kinds} {Good : Value → Prop} (hp : r.Packed) (hr : r.Arena)
    (he : Edit kinds Good r r') : r'.Packed := by
  cases he with
  | marks seen drawn => exact hp
  | keep hc => exact hp
  | @rewrite h c props owner seen queue hc _ _ =>
      exact hp.congr ((sameUse_handOver hc props owner).trans (.of_slots rfl rfl))
  | create owner seen queue _ _ _ _ _ _ => exact hp.create hr _ _ _ owner

theorem drop (hp : r.Packed) (h : Handle) : (r.drop h).Packed := by
  cases hc : r.get? h with
  | none =>
      unfold Roster.drop
      rw [hc]
      exact hp
  | some c =>
      intro k hlt hnone
      rw [get?_drop hc] at hnone
      rw [drop_of_get? hc] at hlt ⊢
      refine KeySet.mem_insert.mpr ?_
      split at hnone
      · next hk => exact .inl hk
      · exact .inr (hp k (length_vacate r h ▸ hlt) hnone)

theorem dropStillborn (hp : r.Packed) : r.dropStillborn.Packed :=
  List.foldlRecOn r.stillborn _ hp fun _ hp h _ => hp.drop h

theorem reclaim_tell (hp : r.Packed) (hr : r.Arena) : r.tell.2.reclaim.Packed := by
  intro h hlt hnone
  rw [length_reclaim_tell] at hlt
  rw [get?_reclaim_tell] at hnone
  rw [spare_reclaim_tell hr.told, mem_insertAll, mem_inOrder]
  split at hnone
  · next hretired => exact .inr hretired
  · exact .inl (hp h hlt hnone)

end Packed

/-! ## What is queued -/

/-- No slot is wasted, and whatever is queued has a record. -/
structure Stocked (r : Roster) : Prop where
  /-- No slot is wasted. -/
  packed : r.Packed
  /-- Whatever is queued has a record. -/
  queued : ∀ h ∈ r.queue, r.get? h ≠ none

theorem stocked_ofConfig (c : Config) : (ofConfig c).Stocked where
  packed h hlt _ := absurd hlt (Nat.not_lt_zero h)
  queued _ hh := absurd hh List.not_mem_nil

/-- A reference adds a record only if it makes a new component. -/
theorem created_of_refer (hempty : r.SpareEmpty) {kinds : Kinds} {id : String} {kind : KindRef}
    {props : Fields} {owner : Option StreamEntry} (hold : r.get? h = none)
    (hnew : (r.refer kinds id kind props owner).2.get? h ≠ none) :
    r.handle? id = none ∧ (r.refer kinds id kind props owner).1 = .ok (h, true) := by
  have hspec := refer_spec kinds r id kind props owner
  generalize (r.refer kinds id kind props owner).1 = x at hspec ⊢
  generalize (r.refer kinds id kind props owner).2 = r' at hspec hnew
  have hsame (hsame : SameUse r r') : False := hnew ((hsame.records h).mpr hold)
  cases hspec with
  | refused e => exact (hsame (.refl r)).elim
  | stillborn => exact (hsame (.refl r)).elim
  | inside => exact (hsame (.of_slots rfl rfl)).elim
  | failed _ _ hc _ => exact (hsame (sameUse_handOver hc props owner)).elim
  | @stale k c _ _ hc _ =>
      obtain ⟨queue, hq, -⟩ := schedule_eq ((r.handOver kinds k c props owner).see k) k
      exact (hsame (hq ▸ (sameUse_handOver hc props owner).trans (.of_slots rfl rfl))).elim
  | unchanged _ _ hc _ =>
      exact (hsame ((sameUse_handOver hc props owner).trans (.of_slots rfl rfl))).elim
  | @created a b hid _ _ =>
      obtain ⟨queue, hq, -⟩ := schedule_eq ((r.create id kind b owner).see r.takeHandle.1)
        r.takeHandle.1
      have hget := get?_create hempty id kind b owner h
      rw [hq] at hnew
      by_cases hh : h = r.takeHandle.1
      · exact ⟨hid, by rw [hh]⟩
      · rw [if_neg hh] at hget
        exact absurd (hget.trans hold) hnew

/-- What a reference adds to the queue has a record. -/
theorem mem_queue_refer (hempty : r.SpareEmpty) {kinds : Kinds} {id : String} {kind : KindRef}
    {props : Fields} {owner : Option StreamEntry}
    (hin : h ∈ (r.refer kinds id kind props owner).2.queue) :
    h ∈ r.queue ∨ (r.refer kinds id kind props owner).2.get? h ≠ none := by
  have hspec := refer_spec kinds r id kind props owner
  generalize (r.refer kinds id kind props owner).1 = x at hspec
  generalize (r.refer kinds id kind props owner).2 = r' at hspec hin ⊢
  cases hspec with
  | @stale k c _ _ hc _ =>
      refine (mem_queue_schedule hin).imp_right fun hh hnone => ?_
      obtain ⟨queue, hq, -⟩ := schedule_eq ((r.handOver kinds k c props owner).see k) k
      rw [hq] at hnone
      have hold := ((sameUse_handOver hc props owner).records h).mp hnone
      rw [hh, hc] at hold
      cases hold
  | @created a b =>
      refine (mem_queue_schedule hin).imp (fun hold => ?_) fun hh hnone => ?_
      · rw [see, create_rest] at hold
        exact hold
      · obtain ⟨queue, hq, -⟩ := schedule_eq ((r.create id kind b owner).see r.takeHandle.1)
          r.takeHandle.1
        have hnew := get?_create hempty id kind b owner h
        rw [if_pos hh] at hnew
        rw [hq] at hnone
        exact absurd (hnew.symm.trans hnone) (Option.some_ne_none _)
  | _ => exact .inl hin

namespace Stocked

/-- The same handles have records, and nothing else is queued but what has one. -/
theorem congr (hs : r.Stocked) (hsame : SameUse r r')
    (hqueue : ∀ h ∈ r'.queue, h ∈ r.queue ∨ r.get? h ≠ none) : r'.Stocked :=
  ⟨hs.packed.congr hsame, fun h hh =>
    mt (hsame.records h).mp ((hqueue h hh).elim (hs.queued h) fun hin => hin)⟩

theorem refer (hs : r.Stocked) (hr : r.Arena) (kinds : Kinds) (id : String) (kind : KindRef)
    (props : Fields) (owner : Option StreamEntry) :
    (r.refer kinds id kind props owner).2.Stocked := by
  have hedit : Edit kinds (fun _ => True) r (r.refer kinds id kind props owner).2 :=
    edit_refer r id kind owner fun _ _ => trivial
  refine ⟨hs.packed.edit hr hedit, fun h hh => ?_⟩
  rcases mem_queue_refer hr.spare_empty hh with hold | hin
  · obtain ⟨c, hc⟩ := Option.ne_none_iff_exists'.mp (hs.queued h hold)
    obtain ⟨c', hc', -⟩ := (Grows.of_edit hr.spare_empty hedit).record h c hc
    exact fun hnone => Option.some_ne_none c' (hc'.symm.trans hnone)
  · exact hin

theorem retireAll (hs : r.Stocked) (ids : List String) : (r.retireAll ids).Stocked :=
  hs.congr (sameUse_retireAll ids r) fun _ hh => .inl ((retires_retireAll ids r).queue ▸ hh)

theorem closePass (hs : r.Stocked) (holds : StreamEntry → Bool) :
    (r.closePass holds).2.Stocked :=
  hs.congr (sameUse_closePass r holds) fun _ hh => .inl ((retires_closePass r holds).queue ▸ hh)

theorem reclaim_tell (hs : r.Stocked) (hr : r.Arena) : r.tell.2.reclaim.Stocked := by
  refine ⟨hs.packed.reclaim_tell hr, fun h hh => ?_⟩
  rw [queue_reclaim_tell, List.mem_filter, decide_eq_true_eq, mem_tell] at hh
  rw [get?_reclaim_tell, if_neg hh.2]
  exact hs.queued h hh.1

end Stocked

/-! ## The handles given out in a pass -/

/-- The handles given out since the pass was opened, in order. -/
def born (r : Roster) : List Handle := r.undo.elim [] Undo.born

theorem born_recordUndo (r : Roster) {f : Undo → Undo} (hf : ∀ u, (f u).born = u.born) :
    (r.recordUndo f).born = r.born := by
  unfold born recordUndo
  cases r.undo with
  | none => rfl
  | some u => exact hf u

theorem born_drop (r : Roster) (h : Handle) : (r.drop h).born = r.born := by
  cases hc : r.get? h with
  | none =>
      unfold drop
      rw [hc]
  | some c =>
      rw [drop_of_get? hc]
      exact born_recordUndo (r.vacate h) fun _ => rfl

theorem born_dropStillborn (r : Roster) : r.dropStillborn.born = r.born :=
  List.foldlRecOn (motive := fun s => s.born = r.born) r.stillborn drop rfl
    fun _ heq h _ => (born_drop _ h).trans heq

/-- Records are added in a pass in turn, and none is dropped as yet. -/
structure Bearing (r₀ r : Roster) : Prop where
  /-- Records, ids and handles go together. -/
  arena : r.Arena
  /-- No slot is wasted. -/
  packed : r.Packed
  /-- A pass is under way. -/
  opened : r.undo.isSome
  /-- Handles were given out in turn. -/
  turn : r₀.InTurn r.born
  /-- A handle has no record exactly if it had none and was not given out. -/
  records : ∀ h, r.get? h = none ↔ r₀.Unused h ∧ h ∉ r.born

theorem Resting.bearing_openPass (hr : r.Resting) (hp : r.Packed) : Bearing r r.openPass where
  arena := hr.arena.congr rfl rfl rfl rfl rfl
  packed := hp
  opened := rfl
  turn := inTurn_nil r
  records h := by
    rw [hr.arena.unused_iff]
    exact (and_iff_left List.not_mem_nil).symm

namespace Bearing

variable {r₀ : Roster}

/-- At each moment those handles are in use that were so before the pass, and those of the births
since. -/
theorem unused_iff (hb : Bearing r₀ r) : r.Unused h ↔ r₀.Unused h ∧ h ∉ r.born :=
  hb.arena.unused_iff.trans (hb.records h)

/-- Records may change, as long as it is the same handles that have one. -/
theorem congr (hb : Bearing r₀ r) (harena : r'.Arena) (hsame : SameUse r r')
    (hopened : r'.undo.isSome = r.undo.isSome) (hborn : r'.born = r.born) : Bearing r₀ r' := by
  refine ⟨harena, hb.packed.congr hsame, hopened.trans hb.opened, hborn ▸ hb.turn, fun h => ?_⟩
  rw [hborn]
  exact (hsame.records h).trans (hb.records h)

theorem keepState (hb : Bearing r₀ r) (c : Component) : Bearing r₀ (r.keepState c) :=
  hb.congr (hb.arena.congr rfl rfl rfl rfl rfl) (.of_slots rfl rfl) Option.isSome_map
    (born_recordUndo r fun _ => rfl)

/-- A new component comes in turn. -/
theorem create (hb : Bearing r₀ r) {id : String} (hid : r.handle? id = none) (kind : KindRef)
    (assigns : Assigns) (owner : Option StreamEntry) :
    Bearing r₀ (r.create id kind assigns owner) := by
  have hempty := hb.arena.spare_empty
  obtain ⟨u, hu⟩ := Option.isSome_iff_exists.mp hb.opened
  have hborn : (r.create id kind assigns owner).born = r.born ++ [r.takeHandle.1] := by
    rw [create_rest, born, born, hu]
    rfl
  -- the least handle that is not in use now
  have hnext : r₀.IsNext r.born r.takeHandle.1 := by
    obtain ⟨⟨hunused, -⟩, hleast⟩ := hb.packed.isNext_takeHandle hb.arena
    refine ⟨hb.unused_iff.mp hunused, fun k hk hout => ?_⟩
    exact hleast k (hb.unused_iff.mpr ⟨hk, hout⟩) List.not_mem_nil
  refine ⟨hb.arena.create hid kind assigns owner, hb.packed.create hb.arena id kind assigns owner,
    ?_, ?_, fun h => ?_⟩
  · rw [create_rest, hu]
    rfl
  · rw [hborn]
    exact hb.turn.concat hnext
  · rw [hborn, get?_create hempty, List.mem_append, List.mem_singleton, not_or]
    by_cases hh : h = r.takeHandle.1
    · simp [hh]
    · simp [hh, hb.records h]

/-- **Every edit adds records in turn.** -/
theorem edit {kinds : Kinds} {Good : Value → Prop} (hb : Bearing r₀ r)
    (he : Edit kinds Good r r') : Bearing r₀ r' := by
  have harena := hb.arena.edit he
  cases he with
  | marks seen drawn => exact hb.congr harena (.of_slots rfl rfl) rfl rfl
  | keep hc => exact hb.keepState _
  | @rewrite h c props owner seen queue hc _ _ =>
      exact hb.congr harena ((sameUse_handOver hc props owner).trans (.of_slots rfl rfl))
        Option.isSome_map (born_recordUndo r fun _ => rfl)
  | create owner seen queue hid _ _ _ _ _ =>
      exact (hb.create hid _ _ owner).congr harena (.of_slots rfl rfl) rfl rfl

/-- **Draining the queue adds records in turn.** -/
theorem steady (r₀ : Roster) (host : Host) :
    Steady host (fun _ => True) (fun _ _ => True) fun _ r _ => Bearing r₀ r where
  good_str _ := trivial
  arena hb := hb.arena
  edit hb he := hb.edit he
  skip hb _ _ := hb.congr (hb.arena.congr rfl rfl rfl rfl rfl) (.of_slots rfl rfl) rfl rfl
  start {r former h queue c} hb _ _ _ := by
    have hnext : Bearing r₀ { r with queue } :=
      hb.congr (hb.arena.congr rfl rfl rfl rfl rfl) (.of_slots rfl rfl) rfl rfl
    exact hnext.keepState c
  yields _ _ hP :=
    (Pass.yields_template hP (Scope.all_true _) (Template.makes_true _) _).mono fun _ _ => trivial
  rendered hb hc _ _ := hb.congr (hb.arena.put hc rfl rfl rfl) (sameUse_put hc _) rfl rfl
  failed hb _ _ := by
    split
    · exact hb.congr (hb.arena.congr rfl rfl rfl rfl rfl) (.of_slots rfl rfl) rfl rfl
    · exact hb

end Bearing

/-- What a pass has given out, when components may have been dropped again. -/
structure Bore (r₀ r : Roster) : Prop where
  /-- No slot is wasted. -/
  packed : r.Packed
  /-- Handles were given out in turn. -/
  turn : r₀.InTurn r.born
  /-- Whatever has a record now and had none was given out. -/
  records : ∀ h, r.get? h ≠ none → r₀.Unused h → h ∈ r.born

namespace Bore

variable {r₀ : Roster}

theorem of_bearing (hb : Bearing r₀ r) : Bore r₀ r :=
  ⟨hb.packed, hb.turn, fun h hin hunused =>
    Decidable.byContradiction fun hout => hin ((hb.records h).mpr ⟨hunused, hout⟩)⟩

theorem congr (hb : Bore r₀ r) (hsame : SameUse r r') (hborn : r'.born = r.born) : Bore r₀ r' :=
  ⟨hb.packed.congr hsame, hborn ▸ hb.turn, fun h hin hunused =>
    hborn ▸ hb.records h (mt (hsame.records h).mpr hin) hunused⟩

theorem dropStillborn (hb : Bore r₀ r) : Bore r₀ r.dropStillborn := by
  obtain ⟨-, -, hget⟩ := dropStillborn_rest r
  have hborn := born_dropStillborn r
  refine ⟨hb.packed.dropStillborn, hborn ▸ hb.turn, fun h hin hunused => ?_⟩
  rw [hget] at hin
  split at hin
  · exact absurd rfl hin
  · exact hborn ▸ hb.records h hin hunused

theorem patches (hb : Bore r₀ r) (former : FormerTrees) : Bore r₀ (r.patches former).2 := by
  obtain ⟨slots, heq⟩ := patches_rest former r
  exact hb.congr (sameUse_patches former r) (by rw [heq]; rfl)

theorem keepTrees (hb : Bore r₀ r) (former : FormerTrees) : Bore r₀ (r.keepTrees former) :=
  hb.congr (.of_slots rfl rfl) (born_recordUndo r fun _ => rfl)

/-- **Rendering the queue gives handles out in turn**, however it goes. -/
theorem renderQueue {host : Host} {fuel : Nat} {p p' : Pass}
    {result : Except Error (Keyed Handle Patch)} (hp : Bearing r₀ p.roster)
    (hq : renderQueue host fuel p = some (result, p')) : Bore r₀ p'.roster := by
  have hoffers : p.Offers fun _ => True := fun _ _ _ _ _ => trivial
  unfold Roster.renderQueue at hq
  split at hq
  · cases hq
  · next e former p₁ hd =>
      obtain ⟨-, rfl⟩ := Prod.mk.inj (Option.some.inj hq)
      obtain ⟨⟨-, hb⟩, -⟩ := (Bearing.steady r₀ host).drain hoffers hp hd
      exact (of_bearing hb).keepTrees former
  · next former p₁ hd =>
      obtain ⟨-, rfl⟩ := Prod.mk.inj (Option.some.inj hq)
      obtain ⟨⟨-, hb⟩, -⟩ := (Bearing.steady r₀ host).drain hoffers hp hd
      exact ((of_bearing hb).dropStillborn.patches former).keepTrees former

end Bore

end ViewSync.Roster
