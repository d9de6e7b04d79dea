import Mathlib.Data.List.Forall2
import ViewSync.Proofs.Patch.Application
import ViewSync.Proofs.Stream.Mirror
import ViewSync.Proofs.Tree.Marks

/-!
# Lists at the client

Where a stream hole stands on the page, the client has a list. It keeps the keys of the list, and
does with them what the edits say that it is sent. But a slot that is sent whole is a new one to the
client, and its list starts out empty, whatever the stream takes the client to hold.

A patch brings the lists of a stream along if the edits in the new tree make the new keys of the old
ones, and make the same of nothing where a slot is sent whole. The induction is on the shape, along
the comparison of the trees.
-/

namespace ViewSync

open ViewSync.Tree

/-! ## What a client keeps -/

/-- What a client keeps of a slot, to know the keys of its lists. -/
inductive Spot where
  /-- A text, or a component, whose own slots are kept under its handle. -/
  | plain
  | page (spots : List Spot)
  | rows (rows : List (List Spot))
  /-- The keys of a list, and the rows that it was sent last. -/
  | list (keys : List String) (rows : List (List Spot))

mutual

/-- What is kept of a slot that is sent whole. A list in it starts out empty. -/
def Slot.spot : Slot → Spot
  | .text _ => .plain
  | .tree content => .page content.spots
  | .rows _ rows => .rows (Slot.spotRows rows)
  | .stream _ edits rows => .list (edits.elim [] (·.apply [])) (Slot.spotRows rows)
  | .component _ => .plain

/-- What is kept of content that is sent whole. -/
def Content.spots : Content → List Spot
  | .mk _ slots => Slot.spots slots

/-- What is kept of slots that are sent whole. -/
def Slot.spots : List Slot → List Spot
  | [] => []
  | s :: ss => s.spot :: Slot.spots ss

/-- What is kept of rows that are sent whole. -/
def Slot.spotRows : List (List Slot) → List (List Spot)
  | [] => []
  | row :: rows => Slot.spots row :: Slot.spotRows rows

end

mutual

/-- What is kept of a slot after a change. -/
def SlotChange.spot : SlotChange → Spot → Option Spot
  | .set slot, _ => some slot.spot
  | .tree changes, .page spots => (Patch.spotsAfter changes spots).map .page
  | .rows rows, .rows _ => some (.rows (Slot.spotRows rows))
  | .rowChanges changes, .rows rows => (Patch.spotRowsAfter changes rows).map .rows
  | .stream edits rows, .list keys _ => some (.list (edits.apply keys) (Slot.spotRows rows))
  | _, _ => none

/-- What is kept of slots after changes of some of them. -/
def Patch.spotsAfter : List (Nat × SlotChange) → List Spot → Option (List Spot)
  | [], spots => some spots
  | (i, change) :: changes, spots =>
    match spots[i]? with
    | none => none
    | some spot =>
      match change.spot spot with
      | none => none
      | some spot => Patch.spotsAfter changes (spots.set i spot)

/-- What is kept of rows after changes of some of them. -/
def Patch.spotRowsAfter : List (Nat × Patch) → List (List Spot) → Option (List (List Spot))
  | [], rows => some rows
  | (_, .replace _) :: _, _ => none
  | (i, .update changes) :: rest, rows =>
    match rows[i]? with
    | none => none
    | some row =>
      match Patch.spotsAfter changes row with
      | none => none
      | some row => Patch.spotRowsAfter rest (rows.set i row)

end

/-- What is kept after a patch. What is not there cannot be changed. -/
def Patch.spots : Patch → Option (List Spot) → Option (List Spot)
  | .replace content, _ => some content.spots
  | .update changes, held => held.bind (Patch.spotsAfter changes)

/-- A patch that says nothing leaves everything as it is. -/
theorem Patch.spots_of_isEmpty {p : Patch} (hp : p.isEmpty = true) (held : Option (List Spot)) :
    p.spots held = held := by
  cases p with
  | replace content => cases hp
  | update changes =>
      obtain rfl : changes = [] := List.isEmpty_iff.mp hp
      exact Option.bind_fun_some held

/-- What is kept of a slot after a change, if there is one. -/
def SlotChange.spotAny (change : Option SlotChange) (spot : Spot) : Option Spot :=
  match change with
  | none => some spot
  | some c => c.spot spot

/-! ## What it should keep -/

mutual

/-- The spots go with the fillings, and the lists of a stream have certain keys. -/
def Shape.Shows (name : String) (held : List String) : Shape → List Filling → List Spot → Prop
  | .text _, _, _ => True
  | .hole _ h rest, f :: fs, s :: ss => h.Shows name held f s ∧ rest.Shows name held fs ss
  | .hole .., _, _ => False

/-- A spot goes with a filling. -/
def HoleShape.Shows (name : String) (held : List String) : HoleShape → Filling → Spot → Prop
  | .choice shapes, .choice (some i) (some t), .page spots =>
    Shape.ShowsAt name held shapes i t spots
  | .choice _, .choice (some _) (some _), _ => False
  | .loop body, .loop _ entries, .rows rows =>
    List.Forall₂ (fun t row => body.Shows name held t.fillings row) entries rows
  | .loop _, .loop .., _ => False
  | .stream other body, .stream _ edits entries, .list keys rows =>
    (other = name → keys = held) ∧
      (edits ≠ none → List.Forall₂ (fun t row => body.Shows name held t.fillings row) entries rows)
  | .stream .., .stream .., _ => False
  | _, _, _ => True

/-- The spots go with a tree of the shape at a position. -/
def Shape.ShowsAt (name : String) (held : List String) : List Shape → Nat → Tree → List Spot → Prop
  | [], _, _, _ => False
  | s :: _, 0, t, spots => s.Shows name held t.fillings spots
  | _ :: ss, n + 1, t, spots => Shape.ShowsAt name held ss n t spots

end

/-- The spots go with a tree. -/
def Tree.Shows (name : String) (held : List String) (t : Tree) (spots : List Spot) : Prop :=
  t.shape.Shows name held t.fillings spots

mutual

/-- Whether the spots go with the fillings. -/
def Shape.decShows (name : String) (held : List String) : (s : Shape) → (fs : List Filling) →
    (spots : List Spot) → Decidable (s.Shows name held fs spots)
  | .text _, _, _ => isTrue trivial
  | .hole _ h rest, f :: fs, s :: ss =>
    @instDecidableAnd _ _ (h.decShows name held f s) (rest.decShows name held fs ss)
  | .hole .., [], _ | .hole .., _ :: _, [] => isFalse id

/-- Whether a spot goes with a filling. -/
def HoleShape.decShows (name : String) (held : List String) : (h : HoleShape) → (f : Filling) →
    (spot : Spot) → Decidable (h.Shows name held f spot)
  | .choice shapes, .choice (some i) (some t), .page spots =>
    Shape.decShowsAt name held shapes i t spots
  | .choice _, .choice (some _) (some _), .plain | .choice _, .choice (some _) (some _), .rows _
  | .choice _, .choice (some _) (some _), .list .. => isFalse id
  | .loop body, .loop _ entries, .rows rows =>
    @List.instDecidableForall₂ Tree _ (fun t row => body.Shows name held t.fillings row)
      (fun t row => body.decShows name held t.fillings row) entries rows
  | .loop _, .loop .., .plain | .loop _, .loop .., .page _ | .loop _, .loop .., .list .. =>
    isFalse id
  | .stream other _, .stream _ none _, .list keys _ =>
    @instDecidableAnd _ _ (inferInstanceAs (Decidable (other = name → keys = held)))
      (isTrue fun hne => absurd rfl hne)
  | .stream other body, .stream _ (some e) entries, .list keys rows =>
    @instDecidableAnd _ _ (inferInstanceAs (Decidable (other = name → keys = held)))
      (@decidable_of_iff _ _ ⟨fun h _ => h, fun h => h (Option.some_ne_none e)⟩
        (@List.instDecidableForall₂ Tree _ (fun t row => body.Shows name held t.fillings row)
          (fun t row => body.decShows name held t.fillings row) entries rows))
  | .stream .., .stream .., .plain | .stream .., .stream .., .page _
  | .stream .., .stream .., .rows _ => isFalse id
  | .value, _, _ | .component _, _, _ | .choice _, .text _, _ | .choice _, .loop .., _
  | .choice _, .stream .., _ | .choice _, .component .., _ | .choice _, .choice none _, _
  | .choice _, .choice (some _) none, _ | .loop _, .text _, _ | .loop _, .choice .., _
  | .loop _, .stream .., _ | .loop _, .component .., _ | .stream .., .text _, _
  | .stream .., .choice .., _ | .stream .., .loop .., _ | .stream .., .component .., _ =>
    isTrue trivial

/-- Whether the spots go with a tree of the shape at a position. -/
def Shape.decShowsAt (name : String) (held : List String) : (shapes : List Shape) → (i : Nat) →
    (t : Tree) → (spots : List Spot) → Decidable (Shape.ShowsAt name held shapes i t spots)
  | [], _, _, _ => isFalse id
  | s :: _, 0, t, spots => s.decShows name held t.fillings spots
  | _ :: ss, n + 1, t, spots => Shape.decShowsAt name held ss n t spots

end

instance (name : String) (held : List String) (t : Tree) (spots : List Spot) :
    Decidable (t.Shows name held spots) := t.shape.decShows name held t.fillings spots

/-! ## What is sent whole -/

mutual

/-- The marks of what is sent whole, where fillings take the place of others. -/
def Shape.fresh (owner : Option StreamEntry) : Shape → List Filling → List Filling → List Mark
  | .hole _ h rest, f :: fs, g :: gs => h.fresh owner f g ++ rest.fresh owner fs gs
  | _, _, _ => []

/-- The marks of what is sent whole, where a filling takes the place of another. Entries of a stream
always are. -/
def HoleShape.fresh (owner : Option StreamEntry) : HoleShape → Filling → Filling → List Mark
  | .choice shapes, .choice (some i) (some t), .choice (some j) (some u) =>
    if i = j then Shape.freshAt owner shapes i t u else Shape.marksAt owner shapes j u
  | .choice shapes, _, g => (HoleShape.choice shapes).marks owner g
  | .loop body, .loop _ before, .loop _ after =>
    if before.length = after.length then
      (before.zip after).flatMap fun e => body.fresh owner e.1.fillings e.2.fillings
    else after.flatMap fun t => body.marks owner t.fillings
  | .stream name body, _, g => ((HoleShape.stream name body).marks owner g).tail
  | _, _, _ => []

/-- The marks of what is sent whole, where a tree takes the place of one of the same branch. -/
def Shape.freshAt (owner : Option StreamEntry) : List Shape → Nat → Tree → Tree → List Mark
  | [], _, _, _ => []
  | s :: _, 0, t, u => s.fresh owner t.fillings u.fillings
  | _ :: ss, n + 1, t, u => Shape.freshAt owner ss n t u

end

/-- The marks of what is sent whole, where a tree takes the place of another, or of nothing. -/
def Tree.fresh (old : Option Tree) (new : Tree) : List Mark :=
  match old with
  | some old =>
    if old.shape = new.shape then new.shape.fresh none old.fillings new.fillings else new.marks
  | none => new.marks

/-! ## Sent whole -/

variable {name : String} {old new : List String} {owner : Option StreamEntry}

/-- The marks of an entry are among those of its hole. -/
theorem HoleShape.mem_marks_entry (owner : Option StreamEntry) (s : Shape) {other : String}
    {body : Shape} {edits : Option StreamEdits} {entries : List Tree}
    (hlen : entries.length = edits.elim 0 (·.inserts.length)) {t : Tree} (ht : t ∈ entries) :
    ∃ e, ∀ m ∈ body.marks (some e) t.fillings,
      m ∈ ((HoleShape.stream other body).marks owner (.stream s edits entries)).tail := by
  obtain ⟨n, hn⟩ := List.mem_iff_getElem?.mp ht
  have hlt : n < (edits.elim [] (·.inserts)).length := by
    have hlt := (List.getElem?_eq_some_iff.mp hn).1
    rw [hlen] at hlt
    cases edits <;> exact hlt
  refine ⟨⟨other, (edits.elim [] (·.inserts))[n].key⟩, fun m hm => ?_⟩
  refine List.mem_flatMap.mpr ⟨((edits.elim [] (·.inserts))[n], t), ?_, List.mem_cons_of_mem _ hm⟩
  refine List.mem_of_getElem? (i := n) ?_
  rw [List.getElem?_zip_eq_some]
  exact ⟨List.getElem?_eq_getElem hlt, hn⟩

/-- The rows of entries that are sent whole. -/
theorem shows_rows {body : Shape} : ∀ entries : List Tree,
    (∀ t ∈ entries, body.Shows name new t.fillings (Slot.spots (row t.fillings))) →
    List.Forall₂ (fun t spots => body.Shows name new t.fillings spots) entries
      (Slot.spotRows (rows entries))
  | [], _ => .nil
  | .mk _ _ :: entries, h =>
    .cons (h _ List.mem_cons_self)
      (shows_rows entries fun t ht => h t (List.mem_cons_of_mem _ ht))

mutual

/-- **What is sent whole has the lists that its edits make from nothing.** -/
theorem Shape.shows_whole (owner : Option StreamEntry) : ∀ (s : Shape) (fs : List Filling),
    s.Fits fs → (∀ e, .hole name e ∈ s.marks owner fs → new = e.elim [] (·.apply [])) →
    s.Shows name new fs (Slot.spots (row fs))
  | .text _, _, _, _ => trivial
  | .hole _ h rest, f :: fs, hfits, hnew =>
    ⟨h.shows_whole owner f hfits.1 fun e hin => hnew e (List.mem_append_left _ hin),
      rest.shows_whole owner fs hfits.2 fun e hin => hnew e (List.mem_append_right _ hin)⟩

theorem HoleShape.shows_whole (owner : Option StreamEntry) : ∀ (h : HoleShape) (f : Filling),
    h.Fits f → (∀ e, .hole name e ∈ h.marks owner f → new = e.elim [] (·.apply [])) →
    h.Shows name new f (slot f).spot
  | .value, .text _, _, _ => trivial
  | .choice _, .choice none none, _, _ => trivial
  | .choice shapes, .choice (some i) (some t), hfits, hnew =>
      Shape.shows_wholeAt owner shapes i t hfits hnew
  | .loop body, .loop _ entries, hfits, hnew =>
      shows_rows entries fun t ht => body.shows_whole owner t.fillings (hfits.2 t ht).2
        fun e hin => hnew e (List.mem_flatMap.mpr ⟨t, ht, hin⟩)
  | .stream other body, .stream s edits entries, hfits, hnew => by
      refine ⟨fun heq => (hnew edits (heq ▸ List.mem_cons_self)).symm,
        fun _ => shows_rows entries fun t ht => ?_⟩
      obtain ⟨e, he⟩ := HoleShape.mem_marks_entry owner s hfits.2.1 ht
      exact body.shows_whole (some e) t.fillings (hfits.2.2 t ht).2
        fun e hin => hnew e (List.mem_cons_of_mem _ (he _ hin))
  | .component _, .component _ _, _, _ => trivial
  | .component _, .text _, _, _ => trivial

theorem Shape.shows_wholeAt (owner : Option StreamEntry) : ∀ (shapes : List Shape) (i : Nat)
    (t : Tree), Shape.FitsAt shapes i t →
    (∀ e, .hole name e ∈ Shape.marksAt owner shapes i t → new = e.elim [] (·.apply [])) →
    Shape.ShowsAt name new shapes i t t.content.spots
  | s :: _, 0, .mk _ fs, hfits, hnew => s.shows_whole owner fs hfits.2 hnew
  | _ :: ss, n + 1, t, hfits, hnew => Shape.shows_wholeAt owner ss n t hfits hnew

end

/-! ## Changed -/

theorem Patch.spotsAfter_consChange {change : Option SlotChange}
    {changes : List (Nat × SlotChange)} {pre spots : List Spot} {before after : Spot}
    (hchange : SlotChange.spotAny change before = some after) :
    Patch.spotsAfter (consChange pre.length change changes) (pre ++ before :: spots) =
      Patch.spotsAfter changes (pre ++ after :: spots) := by
  cases change with
  | none =>
      obtain rfl : before = after := Option.some.inj hchange
      rfl
  | some c =>
      have hget : (pre ++ before :: spots)[pre.length]? = some before := by simp
      have hset : (pre ++ before :: spots).set pre.length after = pre ++ after :: spots := by simp
      have hc : c.spot before = some after := hchange
      rw [consChange, Patch.spotsAfter, hget]
      simp only [hc, hset]

theorem Patch.spotRowsAfter_consChange {changes : List (Nat × SlotChange)}
    {rest : List (Nat × Patch)} {pre rows : List (List Spot)} {before after : List Spot}
    (hrow : Patch.spotsAfter changes before = some after) :
    Patch.spotRowsAfter (consChange pre.length (nonempty (.update changes)) rest)
        (pre ++ before :: rows) =
      Patch.spotRowsAfter rest (pre ++ after :: rows) := by
  cases changes with
  | nil =>
      obtain rfl : before = after := Option.some.inj hrow
      rfl
  | cons c cs =>
      have hget : (pre ++ before :: rows)[pre.length]? = some before := by simp
      have hset : (pre ++ before :: rows).set pre.length after = pre ++ after :: rows := by simp
      change Patch.spotRowsAfter ((pre.length, .update (c :: cs)) :: rest) _ = _
      rw [Patch.spotRowsAfter, hget]
      simp only [hrow, hset]

/-- Changes inside a slot's content: nothing is said when there are none. -/
theorem SlotChange.spotAny_nested {changes : List (Nat × SlotChange)} {before after : List Spot}
    (h : Patch.spotsAfter changes before = some after) :
    SlotChange.spotAny (nested (.update changes)) (.page before) = some (.page after) := by
  cases changes with
  | nil =>
      obtain rfl : before = after := Option.some.inj h
      rfl
  | cons c cs =>
      change (Patch.spotsAfter (c :: cs) before).map _ = _
      rw [h]
      rfl

/-- Changes of rows: nothing is said when there are none. -/
theorem SlotChange.spotAny_rowChanges {changes : List (Nat × Patch)}
    {before after : List (List Spot)} (h : Patch.spotRowsAfter changes before = some after) :
    SlotChange.spotAny (if changes.isEmpty then none else some (.rowChanges changes))
      (.rows before) = some (.rows after) := by
  cases changes with
  | nil =>
      obtain rfl : before = after := Option.some.inj h
      rfl
  | cons c cs =>
      change (Patch.spotRowsAfter (c :: cs) before).map _ = _
      rw [h]
      rfl

/-- What the edits in some marks do to the lists of a stream: those of a hole that stays make the
new keys of the old ones, and those in a slot that is sent whole make them of nothing. -/
structure Advances (name : String) (old new : List String) (all fresh : List Mark) : Prop where
  /-- A hole that stays takes the old keys to the new ones. -/
  stay : ∀ e, .hole name e ∈ all → new = e.elim old (·.apply old)
  /-- A slot that is sent whole has the new keys to begin with. -/
  whole : ∀ e, .hole name e ∈ all → .hole name e ∈ fresh → new = e.elim [] (·.apply [])

theorem Advances.mono {all all' fresh fresh' : List Mark} (h : Advances name old new all fresh)
    (hall : ∀ m ∈ all', m ∈ all) (hfresh : ∀ m ∈ fresh', m ∈ fresh) :
    Advances name old new all' fresh' :=
  ⟨fun e hin => h.stay e (hall _ hin), fun e hin hin' => h.whole e (hall _ hin) (hfresh _ hin')⟩

/-- What there is to say of the fillings of a shape: their changes bring the lists along. -/
def Shape.Brings (name : String) (old new : List String) (owner : Option StreamEntry) (s : Shape) :
    Prop :=
  ∀ (fs gs : List Filling) (pre spots : List Spot) (changes : List (Nat × SlotChange)),
    s.Fits fs → s.Fits gs → s.Shows name old fs spots →
    changesOfEach .nowhere pre.length fs gs = .ok changes →
    Advances name old new (s.marks owner gs) (s.fresh owner fs gs) →
    ∃ spots', Patch.spotsAfter changes (pre ++ spots) = some (pre ++ spots') ∧
      s.Shows name new gs spots'

theorem Shape.Brings.start {s : Shape} (hs : s.Brings name old new owner) {fs gs : List Filling}
    {spots : List Spot} {changes : List (Nat × SlotChange)} (hfs : s.Fits fs) (hgs : s.Fits gs)
    (hshows : s.Shows name old fs spots) (h : changesOfEach .nowhere 0 fs gs = .ok changes)
    (hadv : Advances name old new (s.marks owner gs) (s.fresh owner fs gs)) :
    ∃ spots', Patch.spotsAfter changes spots = some spots' ∧ s.Shows name new gs spots' :=
  hs fs gs [] spots changes hfs hgs hshows h hadv

/-- The same of the rows of a list that has as many entries as before. -/
theorem Shape.Brings.rows {body : Shape} (hbody : body.Brings name old new owner) :
    ∀ (before after : List Tree) (pre rows : List (List Spot)) (changes : List (Nat × Patch)),
      before.length = after.length → (∀ t ∈ before, t.shape = body ∧ body.Fits t.fillings) →
      (∀ t ∈ after, t.shape = body ∧ body.Fits t.fillings) →
      List.Forall₂ (fun t row => body.Shows name old t.fillings row) before rows →
      changesOfEntries .nowhere pre.length before after = .ok changes →
      Advances name old new (after.flatMap fun t => body.marks owner t.fillings)
        ((before.zip after).flatMap fun e => body.fresh owner e.1.fillings e.2.fillings) →
      ∃ rows', Patch.spotRowsAfter changes (pre ++ rows) = some (pre ++ rows') ∧
        List.Forall₂ (fun t row => body.Shows name new t.fillings row) after rows'
  | [], [], pre, _, changes, _, _, _, .nil, h, _ => by
      obtain rfl := Except.ok.inj ((changesOfEntries_nil _).symm.trans h)
      exact ⟨[], rfl, .nil⟩
  | .mk s fs :: before, .mk s' gs :: after, pre, row :: rows, changes, hlen, hbefore, hafter,
      .cons hshows hrest, h, hadv => by
      obtain ⟨hs, hfs⟩ := hbefore _ List.mem_cons_self
      obtain ⟨hs', hgs⟩ := hafter _ List.mem_cons_self
      -- all entries have the shape of the body, so no row is replaced
      obtain rfl : s = s' := hs.trans hs'.symm
      obtain ⟨p, others, hp, hothers, rfl⟩ := changesOfEntries_cons_inv h
      obtain ⟨slots, hslots, rfl⟩ := patchTo_same_inv hp
      obtain ⟨row', hrow, hshows'⟩ := hbody.start hfs hgs hshows hslots
        (hadv.mono (fun _ hm => List.mem_append_left _ hm) fun _ hm => List.mem_append_left _ hm)
      obtain ⟨rows', hrows, hrest'⟩ := hbody.rows before after (pre ++ [row']) rows others
        (Nat.succ.inj hlen) (fun t ht => hbefore t (List.mem_cons_of_mem _ ht))
        (fun t ht => hafter t (List.mem_cons_of_mem _ ht)) hrest (by rwa [List.length_append])
        (hadv.mono (fun _ hm => List.mem_append_right _ hm) fun _ hm => List.mem_append_right _ hm)
      refine ⟨row' :: rows', ?_, .cons hshows' hrest'⟩
      rw [Patch.spotRowsAfter_consChange hrow]
      simpa using hrows

mutual

/-- **The changes of fillings bring their lists along.** -/
theorem Shape.brings (owner : Option StreamEntry) : ∀ s : Shape, s.Brings name old new owner
  | .text _, [], [], pre, spots, changes, _, _, _, h, _ => by
      obtain rfl := Except.ok.inj ((changesOfEach_nil _).symm.trans h)
      exact ⟨spots, rfl, trivial⟩
  | .hole _ hole rest, f :: fs, g :: gs, pre, spot :: spots, changes, hfs, hgs, hshows, h,
      hadv => by
      obtain ⟨change, others, hchange, hothers, rfl⟩ := changesOfEach_cons_inv h
      obtain ⟨spot', hspot, hshows'⟩ := hole.brings owner f g spot change hfs.1 hgs.1 hshows.1
        hchange (hadv.mono (fun _ hm => List.mem_append_left _ hm)
          fun _ hm => List.mem_append_left _ hm)
      obtain ⟨spots', hspots, hrest⟩ := rest.brings owner fs gs (pre ++ [spot']) spots others hfs.2
        hgs.2 hshows.2 (by rwa [List.length_append])
        (hadv.mono (fun _ hm => List.mem_append_right _ hm)
          fun _ hm => List.mem_append_right _ hm)
      refine ⟨spot' :: spots', ?_, hshows', hrest⟩
      rw [Patch.spotsAfter_consChange hspot]
      simpa using hspots

theorem HoleShape.brings (owner : Option StreamEntry) : ∀ (h : HoleShape) (f g : Filling)
    (spot : Spot) (change : Option SlotChange), h.Fits f → h.Fits g → h.Shows name old f spot →
    changeOf .nowhere f g = .ok change →
    Advances name old new (h.marks owner g) (h.fresh owner f g) →
    ∃ spot', SlotChange.spotAny change spot = some spot' ∧ h.Shows name new g spot'
  | .choice shapes, .choice none none, .choice (some j) (some u), spot, change, _, hg, _, h,
      hadv => by
      cases compared_of_changeOf h with
      | whole _ =>
          exact ⟨.page u.content.spots, rfl, Shape.shows_wholeAt owner shapes j u hg
            fun e hin => hadv.whole e hin hin⟩
  | .choice shapes, .choice (some i) (some t), .choice (some j) (some u), .page spots, change, hf,
      hg, hshows, h, hadv => by
      cases compared_of_changeOf h with
      | whole hwhole =>
          -- trees of one branch have one shape
          have hij : i ≠ j := by
            rintro rfl
            have hshape : some t.shape = some u.shape :=
              (Shape.fitsAt_iff.mp hf).1.symm.trans (Shape.fitsAt_iff.mp hg).1
            exact hwhole.elim (· rfl) (· (Option.some.inj hshape))
          rw [HoleShape.fresh, if_neg hij] at hadv
          exact ⟨.page u.content.spots, rfl, Shape.shows_wholeAt owner shapes j u hg
            fun e hin => hadv.whole e hin hin⟩
      | branch hp =>
          rw [HoleShape.fresh, if_pos rfl] at hadv
          obtain ⟨changes, spots', rfl, hspots, hshows'⟩ :=
            Shape.bringsAt owner shapes i t u spots _ hf hg hshows hp hadv
          exact ⟨.page spots', SlotChange.spotAny_nested hspots, hshows'⟩
  | .loop body, .loop s before, .loop s' after, .rows rows, change, hf, hg, hshows, h, hadv => by
      obtain rfl : body = s := hf.1.symm
      obtain rfl : body = s' := hg.1.symm
      cases compared_of_changeOf h with
      | whole hwhole => exact absurd rfl hwhole
      | same hkept => exact absurd hkept Places.not_nowhere
      | rows hlen =>
          rw [HoleShape.fresh, if_neg hlen] at hadv
          refine ⟨_, rfl, shows_rows after fun t ht => ?_⟩
          exact body.shows_whole owner t.fillings (hg.2 t ht).2 fun e hin =>
            have hin := List.mem_flatMap.mpr ⟨t, ht, hin⟩
            hadv.whole e hin hin
      | entries hlen hchanges =>
          rw [HoleShape.fresh, if_pos hlen] at hadv
          obtain ⟨rows', hrows, hshows'⟩ := Shape.Brings.rows (body.brings owner) before after []
            rows _ hlen hf.2 hg.2 hshows hchanges hadv
          exact ⟨.rows rows', SlotChange.spotAny_rowChanges hrows, hshows'⟩
  | .stream other body, .stream s _ before, .stream s' edits after, .list keys rows, change, hf, hg,
      hshows, h, hadv => by
      obtain rfl : body = s := hf.1.symm
      obtain rfl : body = s' := hg.1.symm
      have hname (heq : other = name) : new = edits.elim keys (·.apply keys) := by
        rw [hshows.1 heq]
        exact hadv.stay edits (heq ▸ List.mem_cons_self)
      cases compared_of_changeOf h with
      | whole hwhole => exact absurd rfl hwhole
      | stream =>
          cases edits with
          | none =>
              exact ⟨.list keys rows, rfl, fun heq => (hname heq).symm, fun hne => absurd rfl hne⟩
          | some edits =>
              refine ⟨_, rfl, fun heq => (hname heq).symm, fun _ => shows_rows after fun t ht => ?_⟩
              obtain ⟨e, he⟩ := HoleShape.mem_marks_entry owner body hg.2.1 ht
              exact body.shows_whole (some e) t.fillings (hg.2.2 t ht).2
                fun e hin => hadv.whole e (List.mem_cons_of_mem _ (he _ hin)) (he _ hin)
  -- where there are no lists, nothing has to be kept
  | .value, f, .text _, spot, change, _, _, _, h, _
  | .choice _, f, .choice none none, spot, change, _, _, _, h, _
  | .component _, f, .component _ _, spot, change, _, _, _, h, _
  | .component _, f, .text _, spot, change, _, _, _, h, _ => by
      cases compared_of_changeOf h with
      | whole _ => exact ⟨.plain, rfl, trivial⟩
      | _ => exact ⟨spot, rfl, trivial⟩

theorem Shape.bringsAt (owner : Option StreamEntry) : ∀ (shapes : List Shape) (i : Nat)
    (t u : Tree) (spots : List Spot) (p : Patch), Shape.FitsAt shapes i t →
    Shape.FitsAt shapes i u →
    Shape.ShowsAt name old shapes i t spots → t.patchTo .nowhere u = .ok p →
    Advances name old new (Shape.marksAt owner shapes i u) (Shape.freshAt owner shapes i t u) →
    ∃ changes spots', p = .update changes ∧ Patch.spotsAfter changes spots = some spots' ∧
      Shape.ShowsAt name new shapes i u spots'
  | s :: _, 0, .mk _ fs, .mk _ gs, spots, p, ⟨rfl, hfs⟩, ⟨heq, hgs⟩, hshows, h, hadv => by
      obtain rfl := heq
      obtain ⟨changes, hchanges, rfl⟩ := Tree.patchTo_same_inv h
      obtain ⟨spots', hspots, hshows'⟩ :=
        Shape.Brings.start (Shape.brings owner _) hfs hgs hshows hchanges hadv
      exact ⟨changes, spots', rfl, hspots, hshows'⟩
  | _ :: ss, n + 1, t, u, spots, p, ht, hu, hshows, h, hadv =>
      Shape.bringsAt owner ss n t u spots p ht hu hshows h hadv

end

/-- **A patch brings the lists along**, to a client that has those of the old tree. -/
theorem Tree.shows_patch {before : Option Tree} {after : Tree} {p : Patch}
    {held : Option (List Spot)} (hbefore : ∀ t, before = some t →
      t.Fits ∧ ∃ spots, held = some spots ∧ t.Shows name old spots)
    (hafter : after.Fits) (h : patchFrom .nowhere before after = .ok p)
    (hadv : Advances name old new after.marks (Tree.fresh before after)) :
    ∃ spots, p.spots held = some spots ∧ after.Shows name new spots := by
  have hwhole (hfresh : Tree.fresh before after = after.marks) :
      after.Shows name new after.content.spots := by
    obtain ⟨s, gs⟩ := after
    rw [hfresh] at hadv
    exact s.shows_whole none gs hafter fun e hin => hadv.whole e hin hin
  cases before with
  | none =>
      obtain rfl := Except.ok.inj ((patchFrom_none hafter.wellFormed).symm.trans h)
      exact ⟨_, rfl, hwhole rfl⟩
  | some t =>
      obtain ⟨hfits, spots, rfl, hshows⟩ := hbefore t rfl
      obtain ⟨s, gs⟩ := after
      obtain ⟨s', fs⟩ := t
      by_cases hs : s' = s
      · subst hs
        have hfresh : Tree.fresh (some (.mk s' fs)) (.mk s' gs) = s'.fresh none fs gs := if_pos rfl
        rw [hfresh] at hadv
        obtain ⟨changes, hchanges, rfl⟩ := patchTo_same_inv h
        exact (s'.brings none).start hfits hafter hshows hchanges hadv
      · obtain rfl := Except.ok.inj ((patchTo_other hs hafter.wellFormed.1).symm.trans h)
        exact ⟨_, rfl, hwhole (if_neg hs)⟩

/-! ## Left alone -/

theorem shows_entries {body : Shape} : ∀ {entries : List Tree} {rows : List (List Spot)},
    (∀ t ∈ entries, ∀ row, body.Shows name old t.fillings row →
      body.Shows name new t.fillings row) →
    List.Forall₂ (fun t row => body.Shows name old t.fillings row) entries rows →
    List.Forall₂ (fun t row => body.Shows name new t.fillings row) entries rows
  | _, _, _, .nil => .nil
  | _, _, h, .cons hone hrest =>
    .cons (h _ List.mem_cons_self _ hone)
      (shows_entries (fun t ht => h t (List.mem_cons_of_mem _ ht)) hrest)

mutual

/-- Spots that go with fillings do so still as long as the lists there keep their keys. -/
theorem Shape.shows_congr (owner : Option StreamEntry) : ∀ (s : Shape) (fs : List Filling)
    (spots : List Spot), s.Fits fs → (∀ e, .hole name e ∈ s.marks owner fs → new = old) →
    s.Shows name old fs spots → s.Shows name new fs spots
  | .text _, _, _, _, _, _ => trivial
  | .hole _ h rest, f :: fs, s :: ss, hfits, hsame, hshows =>
    ⟨h.shows_congr owner f s hfits.1 (fun e hin => hsame e (List.mem_append_left _ hin))
        hshows.1,
      rest.shows_congr owner fs ss hfits.2 (fun e hin => hsame e (List.mem_append_right _ hin))
        hshows.2⟩

theorem HoleShape.shows_congr (owner : Option StreamEntry) : ∀ (h : HoleShape) (f : Filling)
    (spot : Spot), h.Fits f → (∀ e, .hole name e ∈ h.marks owner f → new = old) →
    h.Shows name old f spot → h.Shows name new f spot
  | .value, .text _, _, _, _, _ => trivial
  | .choice _, .choice none none, _, _, _, _ => trivial
  | .choice shapes, .choice (some i) (some t), .page spots, hfits, hsame, hshows =>
      Shape.shows_congrAt owner shapes i t spots hfits hsame hshows
  | .loop body, .loop _ entries, .rows rows, hfits, hsame, hshows =>
      shows_entries (fun t ht row => body.shows_congr owner t.fillings row (hfits.2 t ht).2
        fun e hin => hsame e (List.mem_flatMap.mpr ⟨t, ht, hin⟩)) hshows
  | .stream other body, .stream s edits entries, .list keys rows, hfits, hsame, hshows => by
      refine ⟨fun heq => (hshows.1 heq).trans (hsame edits (heq ▸ List.mem_cons_self)).symm,
        fun hne =>
        shows_entries (fun t ht row => ?_) (hshows.2 hne)⟩
      obtain ⟨e, he⟩ := HoleShape.mem_marks_entry owner s hfits.2.1 ht
      exact body.shows_congr (some e) t.fillings row (hfits.2.2 t ht).2
        fun e hin => hsame e (List.mem_cons_of_mem _ (he _ hin))
  | .component _, .component _ _, _, _, _, _ => trivial
  | .component _, .text _, _, _, _, _ => trivial

theorem Shape.shows_congrAt (owner : Option StreamEntry) : ∀ (shapes : List Shape) (i : Nat)
    (t : Tree) (spots : List Spot), Shape.FitsAt shapes i t →
    (∀ e, .hole name e ∈ Shape.marksAt owner shapes i t → new = old) →
    Shape.ShowsAt name old shapes i t spots → Shape.ShowsAt name new shapes i t spots
  | s :: _, 0, t, spots, hfits, hsame, hshows =>
      s.shows_congr owner t.fillings spots hfits.2 hsame hshows
  | _ :: ss, n + 1, t, spots, hfits, hsame, hshows =>
      Shape.shows_congrAt owner ss n t spots hfits hsame hshows

end

end ViewSync
