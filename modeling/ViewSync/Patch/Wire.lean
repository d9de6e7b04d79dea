import ViewSync.Patch
import ViewSync.Value

/-!
# The wire form of patches

Patches as JSON, the fields in the order in which they are sent: slots by number, then `s` for the
texts; for lists `d` for the rows, `s`, and `stream` for edits. Full rows are arrays of slots by
position; changes of rows are objects by position. A component is its handle.
-/

namespace ViewSync

/-- The field of a position. -/
def numbered (i : Nat) (v : Value) : String × Value := (toString i, v)

/-- An array of texts. -/
def wireTexts (ss : List String) : Value := .arr (ss.map .str)

namespace StreamEdits

/-- A placement: key, position, limit, and whether it may only update. -/
def wirePlacement (p : Placement) : Value :=
  .arr [.str p.key, .int p.position, p.limit.elim .null .int, .bool p.updateOnly]

/-- Edits: the stream's number, placements, deleted keys, and whether to reset. -/
def wire (e : StreamEdits) : Value :=
  .arr [.int e.number, .arr (e.inserts.map wirePlacement), wireTexts e.deletes, .bool e.reset]

end StreamEdits

namespace Content

mutual

/-- The wire form of content. -/
def wire : Content → Value
  | .mk texts slots => .obj (wireSlots 0 slots ++ [("s", wireTexts texts)])

/-- The wire form of a slot. -/
def wireSlot : Slot → Value
  | .text s => .str s
  | .tree c => wire c
  | .rows texts rows => .obj [("d", .arr (wireRows rows)), ("s", wireTexts texts)]
  | .stream texts edits rows =>
    .obj ([("d", .arr (wireRows rows)), ("s", wireTexts texts)]
      ++ (edits.map fun e => ("stream", e.wire)).toList)
  | .component h => .int h

/-- Slots as fields, numbered from a position on. -/
def wireSlots (i : Nat) : List Slot → List (String × Value)
  | [] => []
  | s :: ss => numbered i (wireSlot s) :: wireSlots (i + 1) ss

/-- Slots as items. -/
def wireRow : List Slot → List Value
  | [] => []
  | s :: ss => wireSlot s :: wireRow ss

/-- Rows of slots as items. -/
def wireRows : List (List Slot) → List Value
  | [] => []
  | r :: rs => .arr (wireRow r) :: wireRows rs

end

end Content

namespace Patch

mutual

/-- The wire form of a patch. -/
def wire : Patch → Value
  | .replace c => c.wire
  | .update slots => .obj (wireSlots slots)

/-- The wire form of the change of a slot. -/
def wireSlot : SlotChange → Value
  | .set s => Content.wireSlot s
  | .tree slots => .obj (wireSlots slots)
  | .rows rows => .obj [("d", .arr (Content.wireRows rows))]
  | .rowChanges changes => .obj [("d", .obj (wireChanges changes))]
  | .stream edits rows => .obj [("d", .arr (Content.wireRows rows)), ("stream", edits.wire)]

/-- Changes of slots as fields. -/
def wireSlots : List (Nat × SlotChange) → List (String × Value)
  | [] => []
  | (i, p) :: ps => numbered i (wireSlot p) :: wireSlots ps

/-- Changes of rows as fields. -/
def wireChanges : List (Nat × Patch) → List (String × Value)
  | [] => []
  | (i, p) :: ps => numbered i (wire p) :: wireChanges ps

end

/-- The fields of a patch's wire form. -/
def wireFields : Patch → List (String × Value)
  | .replace (.mk texts slots) => Content.wireSlots 0 slots ++ [("s", wireTexts texts)]
  | .update slots => wireSlots slots

theorem wire_eq_obj : ∀ p : Patch, p.wire = .obj p.wireFields
  | .replace (.mk ..) => by simp [wire, wireFields, Content.wire]
  | .update _ => by simp [wire, wireFields]

end Patch

end ViewSync
