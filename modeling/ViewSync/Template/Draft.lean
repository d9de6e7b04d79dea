import ViewSync.Template

/-!
# Drafts of templates

A draft collects texts and holes in order and joins texts that stand next to each other. What it
has collected always alternates, so that every draft can be finished.
-/

namespace ViewSync.Template

/-- Holes, each with the text in front of it, and the text behind the last of them. -/
structure Draft where
  /-- The holes so far. -/
  parts : List (String × Hole) := []
  /-- The text since the last of them. -/
  last : String := ""

namespace Draft

/-- Append text. -/
def text (d : Draft) (s : String) : Draft := { d with last := d.last ++ s }

/-- Append a hole. -/
def hole (d : Draft) (h : Hole) : Draft := ⟨d.parts ++ [(d.last, h)], ""⟩

/-- Append what a path leads to. -/
def valueAt (d : Draft) (path : String) : Draft :=
  d.hole (.value (.paths [Path.ofText path]) fun s => s.value (Path.ofText path))

/-- Append a value made from what certain paths lead to. -/
def value (d : Draft) (reads : List String) (eval : Callback Value) : Draft :=
  d.hole (.value (Reads.ofTexts reads) eval)

/-- Append a value that is made anew on every pass. -/
def freshValue (d : Draft) (eval : Callback Value) : Draft := d.hole (.value .anything eval)

/-- Append a template that is there while a condition holds. -/
def showIf (d : Draft) (reads : List String) (condition : Callback Bool) (t : Template) : Draft :=
  d.hole (.choice (Reads.ofTexts reads)
    (fun s => (condition s).map fun c => if c then some 0 else none) (.more t .none))

/-- Append one of several templates, or nothing. -/
def choice (d : Draft) (reads : List String) (choose : Callback (Option Nat))
    (branches : List Template) : Draft :=
  d.hole (.choice (Reads.ofTexts reads) choose (.ofList branches))

/-- Append a template for each item of a list. -/
def loop (d : Draft) (reads : List String) (items : Callback (List Value)) (binding : String)
    (body : Template) : Draft :=
  d.hole (.loop (Reads.ofTexts reads) items binding body)

/-- Append a template for each item of a named list. -/
def loopOver (d : Draft) (name binding : String) (body : Template) : Draft :=
  d.loop [name] (fun s => s.list name) binding body

/-- Append a template for each insert that a stream has waiting. -/
def stream (d : Draft) (name binding : String) (body : Template) : Draft :=
  d.hole (.stream name binding body)

/-- Append a component. -/
def component (d : Draft) (kind : KindRef) (id : Callback String) (props : Callback Fields) :
    Draft :=
  d.hole (.component kind id props)

/-- The template of everything that was appended. -/
def finish (d : Draft) : Template :=
  d.parts.foldr (fun p t => .hole p.1 p.2 t) (.text d.last)

theorem holes_finish (d : Draft) : d.finish.holes = d.parts.map Prod.snd := by
  obtain ⟨parts, last⟩ := d
  induction parts with
  | nil => rfl
  | cons p ps ih => simpa [finish, holes] using ih

theorem texts_finish (d : Draft) : d.finish.texts = d.parts.map Prod.fst ++ [d.last] := by
  obtain ⟨parts, last⟩ := d
  induction parts with
  | nil => rfl
  | cons p ps ih => simpa [finish, texts] using ih

end Draft

end ViewSync.Template
