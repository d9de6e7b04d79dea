/-!
# Shapes

The part of a template that never changes: its texts, and for each hole between them what kind of
content goes there. Two templates of one shape are the same template for every purpose of
comparing trees: they leave the same texts in the page, and content rendered for the one fits the
other. A shape says nothing about callbacks, what they read, binding names, ids or props.
-/

namespace ViewSync

mutual

/-- Texts and holes by turns. A shape starts and ends with a text. Programs compare a 64-bit hash of
the shape instead: that two shapes are equal stands for their hashes being equal. -/
inductive Shape where
  | text (last : String)
  | hole (lead : String) (hole : HoleShape) (rest : Shape)

/-- What kind of content goes into a hole. -/
inductive HoleShape where
  | value
  | choice (branches : List Shape)
  | loop (body : Shape)
  | stream (name : String) (body : Shape)
  | component (kind : String)

end

namespace Shape

/-- The texts of a shape. -/
def texts : Shape → List String
  | text last => [last]
  | hole lead _ rest => lead :: rest.texts

/-- The holes of a shape. -/
def holes : Shape → List HoleShape
  | text _ => []
  | hole _ h rest => h :: rest.holes

/-- The number of holes. -/
def arity (s : Shape) : Nat := s.holes.length

/-! ## Equality of shapes

A template may stand in many places of another, and its shape with it, so that a shape may unfold to
far more than is kept of it in memory. Two parts that are kept in one place are equal, and that
settles it. The instance for shapes first brings equal parts into one place; what is left to compare
then ends at the first difference. -/

mutual

/-- Decide whether two shapes are equal. -/
def decEq (s t : Shape) : Decidable (s = t) :=
  withPtrEqDecEq s t fun _ =>
    match s, t with
    | .text a, .text b =>
      if h : a = b then isTrue (by rw [h]) else isFalse (by simp [h])
    | .hole a h s, .hole b i t =>
      if hab : a = b then
        match decEqHole h i with
        | isTrue hhi =>
          match decEq s t with
          | isTrue hst => isTrue (by rw [hab, hhi, hst])
          | isFalse hst => isFalse (by simp [hst])
        | isFalse hhi => isFalse (by simp [hhi])
      else isFalse (by simp [hab])
    | .text _, .hole .. => isFalse nofun
    | .hole .., .text _ => isFalse nofun

/-- Decide whether two hole shapes are equal. -/
def decEqHole (h i : HoleShape) : Decidable (h = i) :=
  withPtrEqDecEq h i fun _ =>
    match h, i with
    | .value, .value => isTrue rfl
    | .choice ss, .choice ts =>
      match decEqList ss ts with
      | isTrue h => isTrue (by rw [h])
      | isFalse h => isFalse (by simp [h])
    | .loop s, .loop t =>
      match decEq s t with
      | isTrue h => isTrue (by rw [h])
      | isFalse h => isFalse (by simp [h])
    | .stream m s, .stream n t =>
      if hmn : m = n then
        match decEq s t with
        | isTrue hst => isTrue (by rw [hmn, hst])
        | isFalse hst => isFalse (by simp [hst])
      else isFalse (by simp [hmn])
    | .component k, .component l =>
      if h : k = l then isTrue (by rw [h]) else isFalse (by simp [h])
    | .value, .choice .. | .value, .loop .. | .value, .stream .. | .value, .component .. =>
      isFalse nofun
    | .choice .., .value | .choice .., .loop .. | .choice .., .stream ..
    | .choice .., .component .. => isFalse nofun
    | .loop .., .value | .loop .., .choice .. | .loop .., .stream .. | .loop .., .component .. =>
      isFalse nofun
    | .stream .., .value | .stream .., .choice .. | .stream .., .loop ..
    | .stream .., .component .. => isFalse nofun
    | .component .., .value | .component .., .choice .. | .component .., .loop ..
    | .component .., .stream .. => isFalse nofun

/-- Decide whether two lists of shapes are equal. -/
def decEqList (ss ts : List Shape) : Decidable (ss = ts) :=
  match ss, ts with
  | [], [] => isTrue rfl
  | s :: ss, t :: ts =>
    match decEq s t with
    | isTrue hst =>
      match decEqList ss ts with
      | isTrue h => isTrue (by rw [hst, h])
      | isFalse h => isFalse (by simp [h])
    | isFalse hst => isFalse (by simp [hst])
  | [], _ :: _ => isFalse nofun
  | _ :: _, [] => isFalse nofun

end

instance : DecidableEq Shape := fun s t =>
  withPtrEqDecEq s t fun _ =>
    let shared := ShareCommon.shareCommon' (s, t)
    decEq shared.1 shared.2

instance : DecidableEq HoleShape := decEqHole

end Shape

end ViewSync
