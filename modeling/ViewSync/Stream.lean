import ViewSync.Error

/-!
# Streams

A keyed, ordered collection whose items live at the client only. The server keeps a queue of
changes and the list of keys that the client holds; a *flush* turns the queue into what the client
has to do, and says which keys it holds afterwards.

A client applies a flush by clearing its list on a reset, then taking out all deleted keys, then
putting each insert in place in turn. The rules of the queue are:

* a key is in at most one of the waiting inserts and the waiting deletes;
* an insert takes the place of an earlier waiting insert of its key;
* an insert of a key that the client holds leaves it where it is, unless the insert names another
  position: then the key moves, by a delete and an insert;
* a reset drops what was queued before it.
-/

namespace ViewSync

/-- One entry of one stream. -/
structure StreamEntry where
  /-- The name of the stream. -/
  stream : String
  /-- The key of the entry. -/
  key : String
  deriving DecidableEq

/-- Where an insert puts its key. -/
structure Placement where
  /-- The key that goes there. -/
  key : String
  /-- The position, where a negative one is behind all others. -/
  position : Int
  /-- How many entries to keep: so many first ones, or so many last ones if negative. -/
  limit : Option Int
  /-- Leave the list alone if it does not hold the key. -/
  updateOnly : Bool
  deriving DecidableEq

/-- What a client does to its list: reset it, take out the deletes, place the inserts. -/
structure StreamEdits where
  /-- The number of the stream. -/
  number : Nat
  /-- The keys to put in, one after the other. -/
  inserts : List Placement
  /-- The keys to take out before. -/
  deletes : List String
  /-- Start with an empty list. -/
  reset : Bool
  deriving DecidableEq

namespace Stream

/-- An insert with its item. -/
structure Insert extends Placement where
  /-- What is shown under the key. -/
  item : Value

/-- What a stream has for the client at one time. -/
structure Flush where
  /-- The name of the stream. -/
  name : String
  /-- Its number. -/
  number : Nat := 0
  /-- The entries to put in, one after the other. -/
  inserts : List Insert := []
  /-- The keys to take out before. -/
  deletes : List String := []
  /-- Start with an empty list. -/
  reset : Bool := false

/-- The flush without its items. -/
def Flush.edits (f : Flush) : StreamEdits :=
  ⟨f.number, f.inserts.map Insert.toPlacement, f.deletes, f.reset⟩

/-- Whether there is nothing to do. -/
def Flush.isEmpty (f : Flush) : Bool := f.inserts.isEmpty && f.deletes.isEmpty && !f.reset

/-- A change of a stream. -/
inductive Change where
  | insert (item : Value) (position : Int) (limit : Option Int) (updateOnly : Bool)
  | insertAll (items : List Value) (position : Int) (limit : Option Int)
  | deleteKey (key : String)
  | deleteItem (item : Value)
  | reset (items : List Value)

/-- Put an item behind all others. -/
def Change.append (item : Value) : Change := .insert item (-1) none false

end Stream

/-- The queue of a stream, and the keys that the client holds, in order. -/
structure Stream where
  /-- The number that tells it from other streams. -/
  number : Nat
  /-- How its items are keyed. -/
  keyOf : Value → Value
  /-- The inserts that wait, no two with one key. -/
  inserts : List Stream.Insert := []
  /-- The keys that wait to be deleted. -/
  deletes : List String := []
  /-- The list is to start empty. -/
  reset : Bool := false
  /-- The keys that the client holds. -/
  held : List String := []

namespace Stream

/-! ## Keys -/

/-- The key of an item unless the stream says otherwise: its `id`, a string or a number, behind the
name of the stream. -/
def defaultKey (name : String) (item : Value) : Value :=
  match item.field? "id" with
  | some (.str id) => .str (name ++ "-" ++ id)
  | some (.num id) => .str (name ++ "-" ++ id.text)
  | _ => .null

/-- The keys of items from a position on, none of them empty, a string each, and none twice. -/
def keysFrom (keyOf : Value → Value) (position : Nat) (seen : List String) :
    List Value → Except KeyFault (List String)
  | [] => .ok []
  | item :: items =>
    match keyOf item with
    | .str key =>
      if key.isEmpty then .error (.notText position (.str key))
      else if key ∈ seen then .error (.repeated key)
      else (keysFrom keyOf (position + 1) (key :: seen) items).map (key :: ·)
    | other => .error (.notText position other)

/-- Inserts of items under their keys. -/
def insertsOf (keys : List String) (items : List Value) (position : Int) (limit : Option Int)
    (updateOnly : Bool) : List Insert :=
  (keys.zip items).map fun (key, item) => { key, position, limit, updateOnly, item }

/-- A change with the keys of its items. -/
inductive KeyedChange where
  | inserts (inserts : List Insert)
  | delete (key : String)
  | reset (inserts : List Insert)

/-- Compute the keys of a change. -/
def Change.keyed (keyOf : Value → Value) : Change → Except KeyFault KeyedChange
  | insert item position limit updateOnly =>
    (keysFrom keyOf 0 [] [item]).map fun keys =>
      .inserts (insertsOf keys [item] position limit updateOnly)
  | insertAll items position limit =>
    (keysFrom keyOf 0 [] items).map fun keys =>
      .inserts (insertsOf keys items position limit false)
  | deleteKey key => .ok (.delete key)
  | deleteItem item => (keysFrom keyOf 0 [] [item]).map fun keys => .delete (keys.headD "")
  | reset items =>
    (keysFrom keyOf 0 [] items).map fun keys => .reset (insertsOf keys items (-1) none false)

/-! ## The queue -/

/-- Whether anything is queued. -/
def isWaiting (s : Stream) : Bool := !s.inserts.isEmpty || !s.deletes.isEmpty || s.reset

/-- Queue an insert. -/
def queueInsert (s : Stream) (i : Insert) : Stream :=
  { s with
    deletes := s.deletes.filter (· ≠ i.key)
    inserts := s.inserts.filter (·.key ≠ i.key) ++ [i] }

/-- Queue a delete. It only waits if the client holds the key and will not lose it to a reset. -/
def queueDelete (s : Stream) (key : String) : Stream :=
  { s with
    inserts := s.inserts.filter (·.key ≠ key)
    deletes :=
      if !s.reset && key ∈ s.held && key ∉ s.deletes then s.deletes ++ [key] else s.deletes }

/-- Drop the queue for a reset, which a client that holds nothing does not need. -/
def queueReset (s : Stream) (inserts : List Insert) : Stream :=
  { s with inserts := inserts, deletes := [], reset := s.reset || !s.held.isEmpty }

/-- Queue a change. -/
def queue (s : Stream) : KeyedChange → Stream
  | .inserts is => is.foldl queueInsert s
  | .delete key => s.queueDelete key
  | .reset is => s.queueReset is

/-! ## Flushes -/

/-- Put a key at a position, behind all others if the position is negative or too large. -/
def insertAt (held : List String) (key : String) (position : Int) : List String :=
  if position < 0 || held.length ≤ position.toNat then held ++ [key]
  else held.insertIdx position.toNat key

/-- Keep so many first entries, or so many last ones if negative. -/
def trim (held : List String) (limit : Int) : List String :=
  if 0 ≤ limit then held.take limit.natAbs else held.drop (held.length - limit.natAbs)

/-- Whether an insert moves a key that is held: it names a position other than the key's. -/
def moves (held : List String) (i : Insert) : Bool :=
  match held.idxOf? i.key with
  | some current => 0 ≤ i.position && i.position.toNat ≠ current
  | none => false

/-- Take the keys that move out of the list, one after the other. -/
def takeMoves (held : List String) : List Insert → List String × List String
  | [] => (held, [])
  | i :: is =>
    if moves held i then
      let (held, moved) := takeMoves (held.erase i.key) is
      (held, i.key :: moved)
    else takeMoves held is

/-- The list and the insert to send, after one waiting insert. A key that is held keeps its place,
which the insert then names; one that is not held is put in, unless it may only be updated. -/
def land (held : List String) (i : Insert) : List String × Option Insert :=
  let trimmed (held : List String) := i.limit.elim held (trim held)
  match held.idxOf? i.key with
  | some current => (trimmed held, some { i with position := current })
  | none =>
    if i.updateOnly then (held, none) else (trimmed (insertAt held i.key i.position), some i)

/-- The list and the inserts to send, after all waiting inserts. -/
def landAll (held : List String) : List Insert → List String × List Insert
  | [] => (held, [])
  | i :: is =>
    let (held, sent) := land held i
    let (held, others) := landAll held is
    (held, sent.toList ++ others)

/-- What the client has to do, and the keys that it holds then. -/
structure Plan where
  /-- What the client has to do. -/
  flush : Flush
  /-- The keys that it holds then. -/
  held : List String

/-- Work out the queue against the keys that the client holds. -/
def plan (s : Stream) (name : String) : Plan :=
  let held := if s.reset then [] else s.held
  let deletes := s.deletes.filter (· ∈ held)
  let (held, moved) := takeMoves (held.filter (· ∉ deletes)) s.inserts
  let (held, inserts) := landAll held s.inserts
  ⟨⟨name, s.number, inserts, deletes ++ moved, s.reset⟩, held⟩

/-- Clear the queue, the client now holding the given keys. -/
def adopt (s : Stream) (held : List String) : Stream :=
  { s with inserts := [], deletes := [], reset := false, held := held }

theorem isWaiting_adopt (s : Stream) (held : List String) : (s.adopt held).isWaiting = false := rfl

end Stream

end ViewSync
