import ViewSync.Tree

/-!
# Content

What a client holds of a tree: the texts, and between them a *slot* for each hole. A client knows
nothing of holes and choices. A branch is text or nested content to it, and the entries of a list
share the texts of the list's body, so that an entry is just a row of slots.
-/

namespace ViewSync

mutual

/-- Texts and slots by turns. -/
inductive Content where
  | mk (texts : List String) (slots : List Slot)

/-- What a client holds for a hole. -/
inductive Slot where
  | text (s : String)
  | tree (content : Content)
  /-- The texts of a body and a row of slots for each entry. -/
  | rows (texts : List String) (rows : List (List Slot))
  /-- The texts of a body, edits of the entries that are there, and rows for the inserts. -/
  | stream (texts : List String) (edits : Option StreamEdits) (rows : List (List Slot))
  | component (handle : Handle)

end

namespace Content

/-- The texts. -/
def texts : Content → List String
  | mk ss _ => ss

/-- The slots. -/
def slots : Content → List Slot
  | mk _ ss => ss

end Content

namespace Tree

mutual

/-- The content of a tree. -/
def content : Tree → Content
  | .mk s fs => .mk s.texts (row fs)

/-- The slot of a filling. -/
def slot : Filling → Slot
  | .text s => .text s
  | .choice _ none => .text ""
  | .choice _ (some t) => .tree (content t)
  | .loop body entries => .rows body.texts (rows entries)
  | .stream body edits entries => .stream body.texts edits (rows entries)
  | .component h _ => .component h

/-- The slots of some fillings. -/
def row : List Filling → List Slot
  | [] => []
  | f :: fs => slot f :: row fs

/-- The slots of some trees, a row each. -/
def rows : List Tree → List (List Slot)
  | [] => []
  | .mk _ fs :: ts => row fs :: rows ts

end

end Tree

end ViewSync
