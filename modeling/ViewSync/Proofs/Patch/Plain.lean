import ViewSync.Proofs.Patch.Ordered
import ViewSync.Proofs.Patch.Sheet

/-!
# What the wire form of a patch determines

A patch whose positions go up can be told from its wire form, but for one thing: a stream that has
nothing to do looks like a list with the same texts and rows. `plain` puts such a list in the place
of every such stream, and two patches have wire forms that agree exactly if they are the same then.

Texts, handles and objects are told apart by their kind. Among objects, texts set new content apart
from changes of what is there, `d` the lists from the trees, an array under `d` new rows from
changes of rows, and `stream` the streams from other lists.
-/

namespace ViewSync

/-! ## Streams with nothing to do as lists -/

mutual

/-- Content with a list in the place of every stream that has nothing to do. -/
def Content.plain : Content → Content
  | .mk texts slots => .mk texts (Slot.plainRow slots)

/-- The same of a slot. -/
def Slot.plain : Slot → Slot
  | .text s => .text s
  | .tree c => .tree c.plain
  | .rows texts rows => .rows texts (Slot.plainRows rows)
  | .stream texts none rows => .rows texts (Slot.plainRows rows)
  | .stream texts (some edits) rows => .stream texts (some edits) (Slot.plainRows rows)
  | .component h => .component h

/-- The same of a row of slots. -/
def Slot.plainRow : List Slot → List Slot
  | [] => []
  | s :: ss => s.plain :: Slot.plainRow ss

/-- The same of rows. -/
def Slot.plainRows : List (List Slot) → List (List Slot)
  | [] => []
  | row :: rows => Slot.plainRow row :: Slot.plainRows rows

end

mutual

/-- A patch with a list in the place of every stream that has nothing to do. -/
def Patch.plain : Patch → Patch
  | .replace content => .replace content.plain
  | .update slots => .update (Patch.plainSlots slots)

/-- The same of the change of a slot. -/
def SlotChange.plain : SlotChange → SlotChange
  | .set slot => .set slot.plain
  | .tree slots => .tree (Patch.plainSlots slots)
  | .rows rows => .rows (Slot.plainRows rows)
  | .rowChanges changes => .rowChanges (Patch.plainChanges changes)
  | .stream edits rows => .stream edits (Slot.plainRows rows)

/-- The same of changes of slots. -/
def Patch.plainSlots : List (Nat × SlotChange) → List (Nat × SlotChange)
  | [] => []
  | (i, change) :: changes => (i, change.plain) :: Patch.plainSlots changes

/-- The same of changes of rows. -/
def Patch.plainChanges : List (Nat × Patch) → List (Nat × Patch)
  | [] => []
  | (i, p) :: changes => (i, p.plain) :: Patch.plainChanges changes

end

/-! The wire form does not tell the difference. -/

namespace Content

mutual

theorem wire_plain : ∀ c : Content, c.plain.wire = c.wire
  | .mk texts slots => by rw [Content.plain, wire, wire, wireSlots_plain 0 slots]

theorem wireSlot_plain : ∀ s : Slot, wireSlot s.plain = wireSlot s
  | .text _ => rfl
  | .tree c => by rw [Slot.plain, wireSlot, wireSlot, wire_plain c]
  | .rows _ rows => by rw [Slot.plain, wireSlot, wireSlot, wireRows_plain rows]
  | .stream _ none rows => by rw [Slot.plain, wireSlot, wireSlot, wireRows_plain rows]; rfl
  | .stream _ (some _) rows => by rw [Slot.plain, wireSlot, wireSlot, wireRows_plain rows]
  | .component _ => rfl

theorem wireSlots_plain : ∀ (i : Nat) (ss : List Slot),
    wireSlots i (Slot.plainRow ss) = wireSlots i ss
  | _, [] => rfl
  | i, s :: ss => by
      rw [Slot.plainRow, wireSlots, wireSlots, wireSlot_plain s, wireSlots_plain (i + 1) ss]

theorem wireRow_plain : ∀ ss : List Slot, wireRow (Slot.plainRow ss) = wireRow ss
  | [] => rfl
  | s :: ss => by rw [Slot.plainRow, wireRow, wireRow, wireSlot_plain s, wireRow_plain ss]

theorem wireRows_plain : ∀ rows : List (List Slot), wireRows (Slot.plainRows rows) = wireRows rows
  | [] => rfl
  | row :: rows => by
      rw [Slot.plainRows, wireRows, wireRows, wireRow_plain row, wireRows_plain rows]

end

end Content

namespace Patch

mutual

theorem wire_plain : ∀ p : Patch, p.plain.wire = p.wire
  | .replace c => by rw [plain, wire, wire, Content.wire_plain c]
  | .update slots => by rw [plain, wire, wire, wireSlots_plain slots]

theorem wireSlot_plain : ∀ change : SlotChange, wireSlot change.plain = wireSlot change
  | .set s => by rw [SlotChange.plain, wireSlot, wireSlot, Content.wireSlot_plain s]
  | .tree slots => by rw [SlotChange.plain, wireSlot, wireSlot, wireSlots_plain slots]
  | .rows rows => by rw [SlotChange.plain, wireSlot, wireSlot, Content.wireRows_plain rows]
  | .rowChanges changes => by
      rw [SlotChange.plain, wireSlot, wireSlot, wireChanges_plain changes]
  | .stream _ rows => by rw [SlotChange.plain, wireSlot, wireSlot, Content.wireRows_plain rows]

theorem wireSlots_plain : ∀ changes : List (Nat × SlotChange),
    wireSlots (plainSlots changes) = wireSlots changes
  | [] => rfl
  | (i, change) :: changes => by
      rw [plainSlots, wireSlots, wireSlots, wireSlot_plain change, wireSlots_plain changes]

theorem wireChanges_plain : ∀ changes : List (Nat × Patch),
    wireChanges (plainChanges changes) = wireChanges changes
  | [] => rfl
  | (i, p) :: changes => by
      rw [plainChanges, wireChanges, wireChanges, wire_plain p, wireChanges_plain changes]

end

end Patch

/-! ## Texts and edits -/

theorem agrees_texts {ss ts : List String} : (wireTexts ss).Agrees (wireTexts ts) ↔ ss = ts :=
  Value.agrees_arr_map fun _ _ => Value.agrees_str

namespace StreamEdits

theorem agrees_placement (p q : Placement) :
    (wirePlacement p).Agrees (wirePlacement q) ↔ p = q := by
  obtain ⟨_, _, _, _⟩ := p
  obtain ⟨_, _, _, _⟩ := q
  simp [wirePlacement, Value.agrees_arr, Value.agrees_elim_null]

theorem agrees_wire (d e : StreamEdits) : d.wire.Agrees e.wire ↔ d = e := by
  obtain ⟨_, _, _, _⟩ := d
  obtain ⟨_, _, _, _⟩ := e
  rw [wire, wire, Value.agrees_arr, List.forall₂_cons, Value.agrees_nat]
  simp [Value.agrees_arr_map agrees_placement, agrees_texts]

end StreamEdits

/-! ## The sections of slots, patches and changes -/

section Places

variable {α β : Type}

/-- A list by position, from a position on. -/
def places (i : Nat) : List α → Keyed Nat α
  | [] => []
  | v :: vs => (i, v) :: places (i + 1) vs

theorem risesFrom_places : ∀ (i : Nat) (vs : List α), Keyed.RisesFrom i (places i vs)
  | _, [] => ⟨Keyed.sorted_nil, nofun⟩
  | i, v :: vs => Tree.risesFrom_consChange (risesFrom_places (i + 1) vs) (some v)

theorem related_places {R : α → β → Prop} : ∀ (i : Nat) (vs : List α) (ws : List β),
    Keyed.Related R (places i vs) (places i ws) ↔ List.Forall₂ R vs ws
  | _, [], [] => by simp [places]
  | _, [], _ :: _ => by simp [places]
  | _, _ :: _, [] => by simp [places]
  | i, v :: vs, w :: ws => by simp [places, related_places (i + 1) vs ws]

end Places

namespace Value

/-- An object of a patch: by position what is in its slots, and lists, texts and edits. -/
def face (slots : Keyed Nat Value) (lists texts edits : Option Value) : Value :=
  sheet slots [("d", lists), ("s", texts), ("stream", edits)]

theorem agrees_face {slots slots' : Keyed Nat Value} {lists lists' texts texts' : Option Value}
    {edits edits' : Option Value} (hslots : slots.Sorted) (hslots' : slots'.Sorted) :
    (face slots lists texts edits).Agrees (face slots' lists' texts' edits') ↔
      Keyed.Related Agrees slots slots' ∧ Option.Rel Agrees lists lists' ∧
        Option.Rel Agrees texts texts' ∧ Option.Rel Agrees edits edits' := by
  have hd : IsWord "d" := isWord_of_not_digit (c := 'd') (by simp) rfl
  have hs : IsWord "s" := isWord_of_not_digit (c := 's') (by simp) rfl
  have hstream : IsWord "stream" := isWord_of_not_digit (c := 's') (by simp) rfl
  refine Iff.trans (agrees_sheet hslots hslots' rfl (by simp) (by simp [hd, hs, hstream])) ?_
  simp

end Value

/-! ## Content -/

namespace Content

theorem wireSlots_eq_places : ∀ (i : Nat) (ss : List Slot),
    wireSlots i ss = (places i (wireRow ss)).map fun e => numbered e.1 e.2
  | _, [] => rfl
  | i, s :: ss => by rw [wireSlots, wireSlots_eq_places (i + 1) ss]; rfl

theorem wire_eq_face (texts : List String) (slots : List Slot) :
    (Content.mk texts slots).wire =
      .face (places 0 (wireRow slots)) none (some (wireTexts texts)) none := by
  rw [wire, wireSlots_eq_places]
  rfl

/-- A list, of a loop or of a stream with edits. -/
def listFace (texts : List String) (edits : Option StreamEdits) (rows : List (List Slot)) : Value :=
  .face [] (some (.arr (wireRows rows))) (some (wireTexts texts)) (edits.map StreamEdits.wire)

theorem wireSlot_rows (texts : List String) (rows : List (List Slot)) :
    wireSlot (.rows texts rows) = listFace texts none rows := rfl

theorem wireSlot_stream (texts : List String) (edits : Option StreamEdits)
    (rows : List (List Slot)) :
    wireSlot (.stream texts edits rows) = listFace texts edits rows := by
  cases edits <;> rfl

theorem agrees_edits {x y : Option StreamEdits} :
    Option.Rel Value.Agrees (x.map StreamEdits.wire) (y.map StreamEdits.wire) ↔ x = y := by
  cases x <;> cases y <;> simp [StreamEdits.agrees_wire]

theorem agrees_listFace {texts texts' : List String} {edits edits' : Option StreamEdits}
    {rows rows' : List (List Slot)} :
    (listFace texts edits rows).Agrees (listFace texts' edits' rows') ↔
      List.Forall₂ Value.Agrees (wireRows rows) (wireRows rows') ∧ texts = texts' ∧
        edits = edits' := by
  rw [listFace, listFace, Value.agrees_face Keyed.sorted_nil Keyed.sorted_nil]
  simp [Value.agrees_arr, agrees_texts, agrees_edits]

/-- Trees have no list in them, and lists have one. -/
theorem not_agrees_tree_list {texts texts' : List String} {slots : List Slot}
    {edits : Option StreamEdits} {rows : List (List Slot)} :
    ¬(Content.mk texts slots).wire.Agrees (listFace texts' edits rows) ∧
      ¬(listFace texts' edits rows).Agrees (Content.mk texts slots).wire := by
  rw [wire_eq_face, listFace, Value.agrees_face (risesFrom_places 0 _).1 Keyed.sorted_nil,
    Value.agrees_face Keyed.sorted_nil (risesFrom_places 0 _).1]
  simp

mutual

theorem plain_of_agrees : ∀ c d : Content, c.wire.Agrees d.wire → c.plain = d.plain
  | .mk texts slots, .mk texts' slots', h => by
      rw [wire_eq_face, wire_eq_face,
        Value.agrees_face (risesFrom_places 0 _).1 (risesFrom_places 0 _).1] at h
      obtain ⟨hslots, -, htexts, -⟩ := h
      obtain rfl := agrees_texts.mp (Option.rel_some_some.mp htexts)
      rw [Content.plain, Content.plain,
        plainRow_of_agrees slots slots' ((related_places 0 _ _).mp hslots)]

theorem plainSlot_of_agrees : ∀ s t : Slot, (wireSlot s).Agrees (wireSlot t) → s.plain = t.plain
  | .text _, .text _, h => congrArg Slot.text (Value.agrees_str.mp h)
  | .tree c, .tree d, h => congrArg Slot.tree (plain_of_agrees c d h)
  | .component _, .component _, h => congrArg Slot.component (Value.agrees_nat.mp h)
  | .rows texts rows, .rows texts' rows', h => by
      rw [wireSlot_rows, wireSlot_rows] at h
      obtain ⟨hrows, rfl, -⟩ := agrees_listFace.mp h
      rw [Slot.plain, Slot.plain, plainRows_of_agrees rows rows' hrows]
  | .rows texts rows, .stream texts' edits rows', h => by
      rw [wireSlot_rows, wireSlot_stream] at h
      obtain ⟨hrows, rfl, rfl⟩ := agrees_listFace.mp h
      rw [Slot.plain, Slot.plain, plainRows_of_agrees rows rows' hrows]
  | .stream texts edits rows, .rows texts' rows', h => by
      rw [wireSlot_stream, wireSlot_rows] at h
      obtain ⟨hrows, rfl, rfl⟩ := agrees_listFace.mp h
      rw [Slot.plain, Slot.plain, plainRows_of_agrees rows rows' hrows]
  | .stream texts edits rows, .stream texts' edits' rows', h => by
      rw [wireSlot_stream, wireSlot_stream] at h
      obtain ⟨hrows, rfl, rfl⟩ := agrees_listFace.mp h
      cases edits <;> rw [Slot.plain, Slot.plain, plainRows_of_agrees rows rows' hrows]
  -- trees and lists
  | .tree (.mk _ _), .rows _ _, h => (not_agrees_tree_list.1 (wireSlot_rows .. ▸ h)).elim
  | .rows _ _, .tree (.mk _ _), h => (not_agrees_tree_list.2 (wireSlot_rows .. ▸ h)).elim
  | .tree (.mk _ _), .stream _ _ _, h => (not_agrees_tree_list.1 (wireSlot_stream .. ▸ h)).elim
  | .stream _ _ _, .tree (.mk _ _), h => (not_agrees_tree_list.2 (wireSlot_stream .. ▸ h)).elim
  -- texts, handles and objects
  | .text _, .tree (.mk _ _), h | .text _, .rows _ _, h | .text _, .stream _ _ _, h
  | .text _, .component _, h | .component _, .text _, h | .component _, .tree (.mk _ _), h
  | .component _, .rows _ _, h | .component _, .stream _ _ _, h | .tree (.mk _ _), .text _, h
  | .tree (.mk _ _), .component _, h | .rows _ _, .text _, h | .rows _ _, .component _, h
  | .stream _ _ _, .text _, h | .stream _ _ _, .component _, h => nomatch h.ctorIdx_eq

theorem plainRow_of_agrees : ∀ ss ts : List Slot,
    List.Forall₂ Value.Agrees (wireRow ss) (wireRow ts) → Slot.plainRow ss = Slot.plainRow ts
  | [], [], _ => rfl
  | s :: ss, t :: ts, .cons hslot hrow => by
      rw [Slot.plainRow, Slot.plainRow, plainSlot_of_agrees s t hslot,
        plainRow_of_agrees ss ts hrow]

theorem plainRows_of_agrees : ∀ rows rows' : List (List Slot),
    List.Forall₂ Value.Agrees (wireRows rows) (wireRows rows') →
    Slot.plainRows rows = Slot.plainRows rows'
  | [], [], _ => rfl
  | row :: rows, row' :: rows', .cons hrow hrows => by
      rw [Slot.plainRows, Slot.plainRows, plainRow_of_agrees row row' (Value.agrees_arr.mp hrow),
        plainRows_of_agrees rows rows' hrows]

end

/-- A slot is sent as a text, as a handle, or as an object with texts. -/
theorem wireSlot_cases (s : Slot) :
    (∃ text, wireSlot s = .str text) ∨ (∃ h, wireSlot s = .int h) ∨
      ∃ slots lists texts edits, Keyed.Sorted slots ∧
        wireSlot s = .face slots lists (some texts) edits := by
  match s with
  | .text s => exact .inl ⟨s, rfl⟩
  | .component h => exact .inr (.inl ⟨h, rfl⟩)
  | .tree (.mk texts slots) =>
      exact .inr (.inr ⟨_, _, _, _, (risesFrom_places 0 _).1, wire_eq_face texts slots⟩)
  | .rows texts rows => exact .inr (.inr ⟨_, _, _, _, Keyed.sorted_nil, wireSlot_rows texts rows⟩)
  | .stream texts edits rows =>
      exact .inr (.inr ⟨_, _, _, _, Keyed.sorted_nil, wireSlot_stream texts edits rows⟩)

end Content

/-! ## Patches -/

namespace Patch

theorem wireSlots_eq_numbered : ∀ changes : List (Nat × SlotChange),
    wireSlots changes = (changes.map fun e => (e.1, wireSlot e.2)).map fun e => numbered e.1 e.2
  | [] => rfl
  | (_, _) :: changes => by rw [wireSlots, wireSlots_eq_numbered changes]; rfl

theorem wireChanges_eq_numbered : ∀ changes : List (Nat × Patch),
    wireChanges changes = (changes.map fun e => (e.1, wire e.2)).map fun e => numbered e.1 e.2
  | [] => rfl
  | (_, _) :: changes => by rw [wireChanges, wireChanges_eq_numbered changes]; rfl

theorem obj_wireChanges (changes : List (Nat × Patch)) :
    .obj (wireChanges changes) =
      Value.face (changes.map fun e => (e.1, wire e.2)) none none none := by
  rw [wireChanges_eq_numbered, Value.face, Value.sheet, Value.sheetFields]
  simp

/-- What a patch says by position. -/
def byPosition : Patch → Keyed Nat Value
  | .replace c => places 0 (Content.wireRow c.slots)
  | .update slots => slots.map fun e => (e.1, wireSlot e.2)

/-- The texts of new content. -/
def newTexts : Patch → Option Value
  | .replace c => some (wireTexts c.texts)
  | .update _ => none

theorem sorted_byPosition {p : Patch} (hp : p.Ordered) : p.byPosition.Sorted := by
  cases p with
  | replace c => exact (risesFrom_places 0 _).1
  | update slots => exact Keyed.sorted_map hp.1 _

theorem wireFields_eq (p : Patch) :
    p.wireFields = Value.sheetFields p.byPosition [("s", p.newTexts)] := by
  match p with
  | .replace (.mk texts slots) => rw [wireFields, Content.wireSlots_eq_places]; rfl
  | .update slots => rw [wireFields, wireSlots_eq_numbered]; exact (List.append_nil _).symm

theorem wire_eq_face (p : Patch) : p.wire = .face p.byPosition none p.newTexts none := by
  rw [wire_eq_obj, wireFields_eq]
  cases p <;> rfl

theorem agrees_parts {p q : Patch} (hp : p.Ordered) (hq : q.Ordered) :
    p.wire.Agrees q.wire ↔ Keyed.Related Value.Agrees p.byPosition q.byPosition ∧
      Option.Rel Value.Agrees p.newTexts q.newTexts := by
  rw [wire_eq_face, wire_eq_face, Value.agrees_face (sorted_byPosition hp) (sorted_byPosition hq)]
  simp

end Patch

namespace SlotChange

/-- What a change says of the slots inside a slot that is there already. -/
def byPosition : SlotChange → Keyed Nat Value
  | .tree slots => slots.map fun e => (e.1, Patch.wireSlot e.2)
  | _ => []

/-- What a change says of the rows of a list that is there already. -/
def newRows : SlotChange → Option Value
  | .rows rs => some (.arr (Content.wireRows rs))
  | .rowChanges changes => some (.obj (Patch.wireChanges changes))
  | .stream _ rs => some (.arr (Content.wireRows rs))
  | _ => none

/-- The edits of a stream that is there already. -/
def newEdits : SlotChange → Option Value
  | .stream edits _ => some edits.wire
  | _ => none

variable {p q : SlotChange}

theorem sorted_byPosition (hp : p.Ordered) : p.byPosition.Sorted := by
  cases p with
  | tree slots => exact Keyed.sorted_map hp.1 _
  | _ => exact Keyed.sorted_nil

theorem wireSlot_eq_face (hset : ∀ s, p ≠ .set s) :
    Patch.wireSlot p = .face p.byPosition p.newRows none p.newEdits := by
  cases p with
  | set s => exact absurd rfl (hset s)
  | tree slots =>
      rw [Patch.wireSlot, Patch.wireSlots_eq_numbered]
      exact congrArg Value.obj (List.append_nil _).symm
  | _ => rfl

theorem agrees_parts (hp : p.Ordered) (hq : q.Ordered) (hps : ∀ s, p ≠ .set s)
    (hqs : ∀ s, q ≠ .set s) :
    (Patch.wireSlot p).Agrees (Patch.wireSlot q) ↔
      Keyed.Related Value.Agrees p.byPosition q.byPosition ∧
        Option.Rel Value.Agrees p.newRows q.newRows ∧
          Option.Rel Value.Agrees p.newEdits q.newEdits := by
  rw [wireSlot_eq_face hps, wireSlot_eq_face hqs,
    Value.agrees_face (sorted_byPosition hp) (sorted_byPosition hq)]
  simp

/-- A new slot is a scalar or has texts, and what changes a slot that is there does not. -/
theorem not_agrees_set (hp : p.Ordered) (hps : ∀ s, p ≠ .set s) (s : Slot) :
    ¬(Content.wireSlot s).Agrees (Patch.wireSlot p) ∧
      ¬(Patch.wireSlot p).Agrees (Content.wireSlot s) := by
  rw [wireSlot_eq_face hps]
  obtain ⟨text, hs⟩ | ⟨h, hs⟩ | ⟨_, _, _, _, hsorted, hs⟩ := Content.wireSlot_cases s
  · rw [hs]
    exact ⟨fun h => (nomatch h.ctorIdx_eq), fun h => (nomatch h.ctorIdx_eq)⟩
  · rw [hs]
    exact ⟨fun h => (nomatch h.ctorIdx_eq), fun h => (nomatch h.ctorIdx_eq)⟩
  · rw [hs, Value.agrees_face hsorted (sorted_byPosition hp),
      Value.agrees_face (sorted_byPosition hp) hsorted]
    simp

end SlotChange

namespace Patch

mutual

theorem plain_of_agrees : ∀ p q : Patch, p.Ordered → q.Ordered → p.wire.Agrees q.wire →
    p.plain = q.plain
  | .replace c, .replace d, _, _, h => congrArg Patch.replace (Content.plain_of_agrees c d h)
  | .update ps, .update qs, hp, hq, h => by
      obtain ⟨hslots, -⟩ := (agrees_parts hp hq).mp h
      rw [plain, plain,
        plainSlots_of_agrees ps qs hp.2 hq.2 (Keyed.related_map_iff.mp hslots)]
  | .replace _, .update _, hp, hq, h | .update _, .replace _, hp, hq, h =>
      nomatch ((agrees_parts hp hq).mp h).2

theorem plainSlot_of_agrees : ∀ p q : SlotChange, p.Ordered → q.Ordered →
    (wireSlot p).Agrees (wireSlot q) → p.plain = q.plain
  | .set s, .set t, _, _, h => congrArg SlotChange.set (Content.plainSlot_of_agrees s t h)
  | .tree ps, .tree qs, hp, hq, h => by
      obtain ⟨hslots, -⟩ := (SlotChange.agrees_parts hp hq nofun nofun).mp h
      rw [SlotChange.plain, SlotChange.plain,
        plainSlots_of_agrees ps qs hp.2 hq.2 (Keyed.related_map_iff.mp hslots)]
  | .rows rows, .rows rows', hp, hq, h => by
      obtain ⟨-, hrows, -⟩ := (SlotChange.agrees_parts hp hq nofun nofun).mp h
      rw [SlotChange.plain, SlotChange.plain, Content.plainRows_of_agrees rows rows'
        (Value.agrees_arr.mp (Option.rel_some_some.mp hrows))]
  | .rowChanges ps, .rowChanges qs, hp, hq, h => by
      obtain ⟨-, hrows, -⟩ := (SlotChange.agrees_parts hp hq nofun nofun).mp h
      have hrows := Option.rel_some_some.mp hrows
      rw [obj_wireChanges, obj_wireChanges,
        Value.agrees_face (Keyed.sorted_map hp.1 _) (Keyed.sorted_map hq.1 _)] at hrows
      rw [SlotChange.plain, SlotChange.plain,
        plainChanges_of_agrees ps qs hp.2 hq.2 (Keyed.related_map_iff.mp hrows.1)]
  | .stream edits rows, .stream edits' rows', hp, hq, h => by
      obtain ⟨-, hrows, hedits⟩ := (SlotChange.agrees_parts hp hq nofun nofun).mp h
      obtain rfl := (StreamEdits.agrees_wire _ _).mp (Option.rel_some_some.mp hedits)
      rw [SlotChange.plain, SlotChange.plain, Content.plainRows_of_agrees rows rows'
        (Value.agrees_arr.mp (Option.rel_some_some.mp hrows))]
  -- a new slot and a change of the one that is there
  | .set s, .tree _, _, hq, h | .set s, .rows _, _, hq, h | .set s, .rowChanges _, _, hq, h
  | .set s, .stream _ _, _, hq, h => ((SlotChange.not_agrees_set hq nofun s).1 h).elim
  | .tree _, .set s, hp, _, h | .rows _, .set s, hp, _, h | .rowChanges _, .set s, hp, _, h
  | .stream _ _, .set s, hp, _, h => ((SlotChange.not_agrees_set hp nofun s).2 h).elim
  -- rows and none
  | .tree _, .rows _, hp, hq, h | .tree _, .rowChanges _, hp, hq, h
  | .tree _, .stream _ _, hp, hq, h | .rows _, .tree _, hp, hq, h
  | .rowChanges _, .tree _, hp, hq, h | .stream _ _, .tree _, hp, hq, h =>
      nomatch ((SlotChange.agrees_parts hp hq nofun nofun).mp h).2.1
  -- new rows and changes of rows
  | .rows _, .rowChanges _, hp, hq, h | .rowChanges _, .rows _, hp, hq, h =>
      nomatch (Option.rel_some_some.mp
        ((SlotChange.agrees_parts hp hq nofun nofun).mp h).2.1).ctorIdx_eq
  -- edits and none
  | .rows _, .stream _ _, hp, hq, h | .rowChanges _, .stream _ _, hp, hq, h
  | .stream _ _, .rows _, hp, hq, h | .stream _ _, .rowChanges _, hp, hq, h =>
      nomatch ((SlotChange.agrees_parts hp hq nofun nofun).mp h).2.2

theorem plainSlots_of_agrees : ∀ ps qs : List (Nat × SlotChange), OrderedSlots ps →
    OrderedSlots qs → Keyed.Related (fun p q => (wireSlot p).Agrees (wireSlot q)) ps qs →
    plainSlots ps = plainSlots qs
  | [], [], _, _, _ => rfl
  | (_, p) :: ps, (_, q) :: qs, hp, hq, .cons ⟨rfl, h⟩ hrest => by
      rw [plainSlots, plainSlots, plainSlot_of_agrees p q hp.1 hq.1 h,
        plainSlots_of_agrees ps qs hp.2 hq.2 hrest]

theorem plainChanges_of_agrees : ∀ ps qs : List (Nat × Patch), OrderedRows ps →
    OrderedRows qs → Keyed.Related (fun p q => (wire p).Agrees (wire q)) ps qs →
    plainChanges ps = plainChanges qs
  | [], [], _, _, _ => rfl
  | (_, p) :: ps, (_, q) :: qs, hp, hq, .cons ⟨rfl, h⟩ hrest => by
      rw [plainChanges, plainChanges, plain_of_agrees p q hp.1 hq.1 h,
        plainChanges_of_agrees ps qs hp.2 hq.2 hrest]

end

/-- **The wire form of a patch determines it, but for streams with nothing to do.** -/
theorem agrees_iff_plain {p q : Patch} (hp : p.Ordered) (hq : q.Ordered) :
    p.wire.Agrees q.wire ↔ p.plain = q.plain := by
  refine ⟨plain_of_agrees p q hp hq, fun h => ?_⟩
  rw [← wire_plain p, ← wire_plain q, h]
  exact Value.agrees_refl _

end Patch

end ViewSync
