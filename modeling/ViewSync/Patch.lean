import ViewSync.Content

/-!
# Patches

What a client is told after a pass: new content altogether, or changes of single slots of the
content that it holds. A slot that is not mentioned has not changed.
-/

namespace ViewSync

mutual

/-- A change of content. -/
inductive Patch where
  /-- New content, texts included. -/
  | replace (content : Content)
  /-- Changes of some slots, by position. -/
  | update (slots : List (Nat × SlotChange))

/-- A change of a slot. -/
inductive SlotChange where
  /-- A new slot. -/
  | set (slot : Slot)
  /-- Changes inside the content in the slot. -/
  | tree (slots : List (Nat × SlotChange))
  /-- New rows, under the texts that the slot has. -/
  | rows (rows : List (List Slot))
  /-- Changes of some rows, by position. -/
  | rowChanges (changes : List (Nat × Patch))
  /-- Edits of the entries, and rows for the inserts, under the texts that the slot has. -/
  | stream (edits : StreamEdits) (rows : List (List Slot))

end

namespace Patch

/-- Nothing to send. -/
def isEmpty : Patch → Bool
  | replace _ => false
  | update slots => slots.isEmpty

/-- The number of slots that are sent. -/
def size : Patch → Nat
  | replace c => c.slots.length
  | update slots => slots.length

end Patch

end ViewSync
