import ViewSync.Stream

/-!
# The streams of a view

Streams by name, in the order in which they came up. A stream comes up when it is told how to key
its items or when a change of it is accepted, and is numbered then. A change that is refused leaves
no trace.
-/

namespace ViewSync

/-- The streams of a view. -/
structure Streams where
  /-- The streams, in the order in which they came up. -/
  all : List (String × Stream) := []
  /-- The number of the next stream. Programs count in 32 bits, and a count without a bound is the
  same as long as fewer than `2 ^ 32` streams have come up. Numbers stay below the count of acts
  that led to them: `t.number < acts.length` in `Proofs/Stream/Queue`. -/
  nextNumber : Nat := 0

namespace Streams

/-- The stream of a name. -/
def get? (s : Streams) (name : String) : Option Stream := Keyed.get? s.all name

/-- Whether there is a stream of a name. -/
def has (s : Streams) (name : String) : Bool := (s.get? name).isSome

/-- Change the stream of a name, if there is one. -/
def modify (s : Streams) (name : String) (f : Stream → Stream) : Streams :=
  { s with all := Keyed.modify s.all name f }

/-- Tell a stream how its items are keyed. -/
def keyBy (s : Streams) (name : String) (keyOf : Value → Value) : Streams :=
  if s.has name then s.modify name fun t => { t with keyOf := keyOf }
  else
    { all := s.all ++ [(name, { number := s.nextNumber, keyOf })]
      nextNumber := s.nextNumber + 1 }

/-- How the items of a stream are keyed. -/
def keyOf (s : Streams) (name : String) : Value → Value :=
  match s.get? name with
  | some t => t.keyOf
  | none => Stream.defaultKey name

/-- Queue a change, if every key in it is in order. -/
def change (s : Streams) (name : String) (c : Stream.Change) : Except Error Streams :=
  match c.keyed (s.keyOf name) with
  | .error fault => .error (.badKey name fault)
  | .ok keyed =>
    let s := if s.has name then s else s.keyBy name (s.keyOf name)
    .ok (s.modify name (·.queue keyed))

/-- What one stream has waiting, and the streams without it. -/
def flush (s : Streams) (name : String) : Stream.Flush × Streams :=
  match s.get? name with
  | some t =>
    let p := t.plan name
    (p.flush, s.modify name (·.adopt p.held))
  | none => ({ name }, s)

/-- What every stream with a queue has waiting. The queues are left as they are. -/
def plans (s : Streams) : List (String × Stream.Plan) :=
  (s.all.filter (·.2.isWaiting)).map fun (name, t) => (name, t.plan name)

/-- Clear the queues of streams, the client now holding the given keys of each. -/
def adopt (s : Streams) (held : List (String × List String)) : Streams :=
  held.foldl (fun s (name, keys) => s.modify name (·.adopt keys)) s

/-- Whether any stream has a queue. -/
def anyWaiting (s : Streams) : Bool := s.all.any (·.2.isWaiting)

/-- The keys of a stream that the client holds, in order. -/
def held? (s : Streams) (name : String) : Option (List String) := (s.get? name).map Stream.held

/-- Whether the client holds an entry. -/
def holds (s : Streams) (e : StreamEntry) : Bool :=
  (s.held? e.stream).any fun keys => keys.contains e.key

/-- Drop every stream. Numbers go on from where they were. -/
def clear (s : Streams) : Streams := { s with all := [] }

end Streams

end ViewSync
