import ViewSync.Proofs.Patch.Kept
import ViewSync.Proofs.Tree.WellFormed

/-!
# Applying patches

What a client does with a patch: new content takes the place of the old, and changes of slots are
made to the content that it holds, one after the other. A patch that does not fit the content fails.

Any two well-formed trees can be compared, and if there is no stream in the new one, the patch turns
the content of the old tree into the content of the new one. The trees may be of different
templates, as a whole or anywhere inside; what lines their fillings up is only that trees of one
shape have as many of them. The induction is on the new tree, whose parts the comparison goes
through.
-/

namespace ViewSync

mutual

/-- Content after a patch. -/
def Patch.apply : Patch → Content → Option Content
  | .replace c, _ => some c
  | .update changes, .mk texts slots => (Patch.applySlots changes slots).map (.mk texts)

/-- A slot after a change. -/
def SlotChange.apply : SlotChange → Slot → Option Slot
  | .set slot, _ => some slot
  | .tree changes, .tree (.mk texts slots) =>
    (Patch.applySlots changes slots).map fun slots => .tree (.mk texts slots)
  | .rows rows, .rows texts _ => some (.rows texts rows)
  | .rowChanges changes, .rows texts rows => (Patch.applyRows changes rows).map (.rows texts)
  | _, _ => none

/-- Slots after changes of some of them. -/
def Patch.applySlots : List (Nat × SlotChange) → List Slot → Option (List Slot)
  | [], slots => some slots
  | (i, change) :: changes, slots =>
    match slots[i]? with
    | none => none
    | some slot =>
      match change.apply slot with
      | none => none
      | some slot => Patch.applySlots changes (slots.set i slot)

/-- Rows after changes of some of them. A row has no texts of its own. -/
def Patch.applyRows : List (Nat × Patch) → List (List Slot) → Option (List (List Slot))
  | [], rows => some rows
  | (_, .replace _) :: _, _ => none
  | (i, .update changes) :: rest, rows =>
    match rows[i]? with
    | none => none
    | some row =>
      match Patch.applySlots changes row with
      | none => none
      | some row => Patch.applyRows rest (rows.set i row)

end

/-- A slot after a change, if there is one. -/
def SlotChange.applyAny (change : Option SlotChange) (slot : Slot) : Option Slot :=
  match change with
  | none => some slot
  | some c => c.apply slot

/-- What a client holds after a patch. It can replace what it does not hold, and cannot change
it. -/
def Patch.applyTo (p : Patch) (held : Option Content) : Option Content :=
  match held, p with
  | some c, p => p.apply c
  | none, .replace c => some c
  | none, .update _ => none

open ViewSync.Tree

/-! ## Changes, one after the other -/

theorem Patch.applySlots_consChange {change : Option SlotChange}
    {changes : List (Nat × SlotChange)} {pre slots : List Slot} {old new : Slot}
    (hchange : SlotChange.applyAny change old = some new) :
    Patch.applySlots (consChange pre.length change changes) (pre ++ old :: slots) =
      Patch.applySlots changes (pre ++ new :: slots) := by
  cases change with
  | none =>
      obtain rfl : old = new := Option.some.inj hchange
      rfl
  | some c =>
      have hget : (pre ++ old :: slots)[pre.length]? = some old := by simp
      have hset : (pre ++ old :: slots).set pre.length new = pre ++ new :: slots := by simp
      have hc : c.apply old = some new := hchange
      rw [consChange, Patch.applySlots, hget]
      simp only [hc, hset]

theorem Patch.applyRows_consChange {changes : List (Nat × SlotChange)}
    {rest : List (Nat × Patch)} {pre rows : List (List Slot)} {old new : List Slot}
    (hrow : Patch.applySlots changes old = some new) :
    Patch.applyRows (consChange pre.length (nonempty (.update changes)) rest)
        (pre ++ old :: rows) =
      Patch.applyRows rest (pre ++ new :: rows) := by
  cases changes with
  | nil =>
      obtain rfl : old = new := Option.some.inj hrow
      rfl
  | cons c cs =>
      have hget : (pre ++ old :: rows)[pre.length]? = some old := by simp
      have hset : (pre ++ old :: rows).set pre.length new = pre ++ new :: rows := by simp
      change Patch.applyRows ((pre.length, .update (c :: cs)) :: rest) _ = _
      rw [Patch.applyRows, hget]
      simp only [hrow, hset]

/-- Changes inside a slot's content: nothing is said when there are none. -/
theorem SlotChange.applyAny_nested {p : Patch} {old new : Content} (h : p.apply old = some new) :
    SlotChange.applyAny (nested p) (.tree old) = some (.tree new) := by
  obtain ⟨texts, slots⟩ := old
  match p with
  | .replace c =>
      obtain rfl : c = new := Option.some.inj h
      rfl
  | .update [] =>
      obtain rfl : Content.mk texts slots = new := Option.some.inj h
      rfl
  | .update (c :: cs) =>
      obtain ⟨slots', hslots, rfl⟩ := Option.map_eq_some_iff.mp h
      change (Patch.applySlots (c :: cs) slots).map _ = _
      rw [hslots]
      rfl

/-- Changes of rows: nothing is said when there are none. -/
theorem SlotChange.applyAny_rowChanges {changes : List (Nat × Patch)} {texts : List String}
    {old new : List (List Slot)} (h : Patch.applyRows changes old = some new) :
    SlotChange.applyAny (if changes.isEmpty then none else some (.rowChanges changes))
      (.rows texts old) = some (.rows texts new) := by
  cases changes with
  | nil =>
      obtain rfl : old = new := Option.some.inj h
      rfl
  | cons c cs =>
      change (Patch.applyRows (c :: cs) old).map _ = _
      rw [h]
      rfl

/-! ## Trees -/

namespace Tree

mutual

/-- Any two well-formed trees can be compared. -/
theorem exists_patch {kept : Places} : ∀ new old : Tree, old.WellFormed → new.WellFormed →
    ∃ p, old.patchTo kept new = .ok p
  | .mk s gs, .mk s' fs, hold, hnew => by
      by_cases hs : s' = s
      · subst hs
        obtain ⟨changes, hchanges⟩ :=
          exists_changesOfEach gs fs 0 (hold.1.trans hnew.1.symm) hold.2 hnew.2
        exact ⟨_, patchTo_same hold.1 hnew.1 hchanges⟩
      · exact ⟨_, patchTo_other hs hnew.1⟩

theorem exists_changesOfEach {kept : Places} : ∀ (after before : List Filling) (i : Nat),
    before.length = after.length → WellFormedEach before → WellFormedEach after →
    ∃ changes, changesOfEach kept i before after = .ok changes
  | [], [], i, _, _, _ => ⟨[], changesOfEach_nil i⟩
  | a :: as, b :: bs, i, hlen, hbefore, hafter => by
      obtain ⟨change, hchange⟩ := exists_changeOf a b hbefore.1 hafter.1
      obtain ⟨rest, hrest⟩ :=
        exists_changesOfEach as bs (i + 1) (Nat.succ.inj hlen) hbefore.2 hafter.2
      exact ⟨_, changesOfEach_cons hchange hrest⟩

theorem exists_changeOf {kept : Places} : ∀ after before : Filling, WellFormedFilling before →
    WellFormedFilling after → ∃ change, changeOf kept before after = .ok change
  | .choice d (some u), before, hbefore, hafter => by
      refine exists_changeOf_of ?_ nofun
      rintro c _ t _ rfl ⟨rfl, rfl⟩
      exact exists_patch u t hbefore.branch hafter.branch
  | .loop new after, before, hbefore, hafter => by
      refine exists_changeOf_of nofun ?_
      rintro body ts _ rfl ⟨rfl, rfl⟩ hlen
      exact exists_changesOfEntries after ts new 0 hlen hbefore hafter
  | .text _, _, _, _ | .choice _ none, _, _, _ | .stream _ _ _, _, _, _
  | .component _ _, _, _, _ => exists_changeOf_of nofun nofun

theorem exists_changesOfEntries {kept : Places} : ∀ (after before : List Tree) (body : Shape)
    (i : Nat), before.length = after.length → EntriesOf body before → EntriesOf body after →
    ∃ changes, changesOfEntries kept i before after = .ok changes
  | [], [], _, i, _, _, _ => ⟨[], changesOfEntries_nil i⟩
  | a :: as, b :: bs, body, i, hlen, hbefore, hafter => by
      obtain ⟨p, hp⟩ := exists_patch a b hbefore.1.2 hafter.1.2
      obtain ⟨rest, hrest⟩ :=
        exists_changesOfEntries as bs body (i + 1) (Nat.succ.inj hlen) hbefore.2 hafter.2
      exact ⟨_, changesOfEntries_cons hp hrest⟩

end

mutual

/-- If there is no stream in the new tree, the patch turns the content of the old one into its
content, as long as the lists that were kept are the old ones. -/
theorem patchTo_apply {kept : Places} : ∀ (new old : Tree) (p : Patch), old.WellFormed →
    new.WellFormed → new.Streamless → old.KeptBy (· = ·) kept new → old.patchTo kept new = .ok p →
    p.apply old.content = some new.content
  | .mk s gs, .mk s' fs, p, hold, hnew, hfree, hkept, h => by
      obtain ⟨-, rfl⟩ | ⟨rfl, hlen, changes, hchanges, rfl⟩ := patchTo_cases h
      · rfl
      · have hslots := changesOfEach_apply gs fs [] changes hlen hold.2 hnew.2 hfree
          hkept.fillings hchanges
        simp only [List.nil_append] at hslots
        simp only [content, Patch.apply, hslots, Option.map_some]

theorem changesOfEach_apply {kept : Places} : ∀ (after before : List Filling) (pre : List Slot)
    (changes : List (Nat × SlotChange)), before.length = after.length → WellFormedEach before →
    WellFormedEach after → StreamlessEach after →
    Filling.KeptByEach (· = ·) kept pre.length before after →
    changesOfEach kept pre.length before after = .ok changes →
    Patch.applySlots changes (pre ++ row before) = some (pre ++ row after)
  | [], [], pre, changes, _, _, _, _, _, h => by
      obtain rfl := Except.ok.inj ((changesOfEach_nil _).symm.trans h)
      rfl
  | a :: as, b :: bs, pre, changes, hlen, hbefore, hafter, hfree, hkept, h => by
      obtain ⟨change, rest, hchange, hrest, rfl⟩ := changesOfEach_cons_inv h
      have hone := changeOf_apply a b change hbefore.1 hafter.1 hfree.1 hkept.head hchange
      have hothers := changesOfEach_apply as bs (pre ++ [slot a]) rest (Nat.succ.inj hlen)
        hbefore.2 hafter.2 hfree.2 (by simpa using hkept.tail) (by rwa [List.length_append])
      rw [row, row, Patch.applySlots_consChange hone]
      simpa using hothers

theorem changeOf_apply {kept : Places} : ∀ (after before : Filling) (change : Option SlotChange),
    WellFormedFilling before → WellFormedFilling after → StreamlessFilling after →
    before.KeptBy (· = ·) kept after → changeOf kept before after = .ok change →
    SlotChange.applyAny change (slot before) = some (slot after)
  | .choice _ (some u), before, change, hbefore, hafter, hfree, hkept, h => by
      cases compared_of_changeOf h with
      | whole _ => rfl
      | branch hp =>
          exact SlotChange.applyAny_nested
            (patchTo_apply u _ _ hbefore.branch hafter.branch hfree hkept.branch hp)
  | .loop body after, before, change, hbefore, hafter, hfree, hkept, h => by
      cases compared_of_changeOf h with
      | whole _ => rfl
      | same hhere => exact congrArg (some ∘ slot) (hkept.here hhere)
      | rows _ => rfl
      | @entries _ before _ changes hlen hchanges =>
          have hrows := changesOfEntries_apply after before body [] changes hlen hbefore hafter
            hfree hkept.entries hchanges
          simp only [List.nil_append] at hrows
          exact SlotChange.applyAny_rowChanges hrows
  | .text _, before, change, _, _, _, _, h | .choice _ none, before, change, _, _, _, _, h
  | .component _ _, before, change, _, _, _, _, h => by
      cases compared_of_changeOf h <;> rfl

theorem changesOfEntries_apply {kept : Places} : ∀ (after before : List Tree) (body : Shape)
    (pre : List (List Slot)) (changes : List (Nat × Patch)), before.length = after.length →
    EntriesOf body before → EntriesOf body after → StreamlessTrees after →
    Tree.KeptByEach (· = ·) kept pre.length before after →
    changesOfEntries kept pre.length before after = .ok changes →
    Patch.applyRows changes (pre ++ rows before) = some (pre ++ rows after)
  | [], [], _, pre, changes, _, _, _, _, _, h => by
      obtain rfl := Except.ok.inj ((changesOfEntries_nil _).symm.trans h)
      rfl
  | .mk s gs :: as, .mk s' fs :: bs, body, pre, changes, hlen, hbefore, hafter, hfree, hkept,
      h => by
      obtain ⟨⟨hs', hold⟩, hbs⟩ := hbefore
      obtain ⟨⟨hs, hnew⟩, has⟩ := hafter
      -- all entries have the shape of the body, so no row is replaced
      obtain rfl : s' = s := hs'.trans hs.symm
      obtain ⟨p, rest, hp, hrest, rfl⟩ := changesOfEntries_cons_inv h
      obtain ⟨slots, hslots, rfl⟩ := patchTo_same_inv hp
      have hrow := changesOfEach_apply gs fs [] slots (hold.1.trans hnew.1.symm) hold.2 hnew.2
        hfree.1 hkept.head.fillings hslots
      have hothers := changesOfEntries_apply as bs body (pre ++ [row gs]) rest (Nat.succ.inj hlen)
        hbs has hfree.2 (by simpa using hkept.tail) (by rwa [List.length_append])
      simp only [List.nil_append] at hrow
      rw [rows, rows, Patch.applyRows_consChange hrow]
      simpa using hothers

end

theorem patchFrom_none {kept : Places} {t : Tree} (h : t.WellFormed) :
    patchFrom kept none t = .ok (.replace t.content) := by
  obtain ⟨s, fs⟩ := t
  change (checkFit s fs.length).map _ = _
  rw [checkFit_eq h.1]
  rfl

/-- Trees that fit are never refused. -/
theorem exists_patchFrom (kept : Places) {old : Option Tree} {new : Tree}
    (hold : ∀ t, old = some t → t.Fits) (hnew : new.Fits) :
    ∃ p, patchFrom kept old new = .ok p := by
  cases old with
  | none => exact ⟨_, patchFrom_none hnew.wellFormed⟩
  | some old => exact exists_patch new old (hold old rfl).wellFormed hnew.wellFormed

/-- What a client holds after a patch, whether it had the old tree or none. -/
theorem applyTo_patchFrom {old : Option Tree} {new : Tree} {p : Patch}
    (hfree : new.shape.StreamFree) (hold : ∀ t, old = some t → t.Fits) (hnew : new.Fits)
    (h : patchFrom .nowhere old new = .ok p) : p.applyTo (old.map content) = some new.content := by
  cases old with
  | some old =>
      exact patchTo_apply new old p (hold old rfl).wellFormed hnew.wellFormed
        (hnew.streamless hfree) (keptBy_nowhere old new) h
  | none =>
      obtain rfl := Except.ok.inj ((patchFrom_none hnew.wellFormed).symm.trans h)
      rfl

/-! ## The law of patches -/

/-- **A patch brings a client from the old tree to the new one**, whatever well-formed tree the old
one is, and from nothing when there is none. A list that was kept has the entries that it had; where
the trees fit their shapes no more is asked for, and otherwise it has to have its body as well. -/
theorem patchFrom_brings_content {kept : Places} {old new : Tree} (hold : old.WellFormed)
    (hnew : new.WellFormed) (hfree : new.Streamless)
    (hkept : old.KeptBy (· = ·) kept new ∨
      old.Fits ∧ new.Fits ∧ old.KeptBy Filling.SameEntries kept new) :
    (∃ p, patchFrom kept (some old) new = .ok p ∧
        p.applyTo (some old.content) = some new.content) ∧
      ∃ p, patchFrom kept none new = .ok p ∧ p.applyTo none = some new.content := by
  have hwhole : old.KeptBy (· = ·) kept new :=
    hkept.elim id fun ⟨hold, hnew, hsame⟩ => hold.keptBy hnew hsame
  obtain ⟨p, hp⟩ := exists_patch new old hold hnew
  exact ⟨⟨p, hp, patchTo_apply new old p hold hnew hfree hwhole hp⟩, _, patchFrom_none hnew, rfl⟩

/-- The shape of a page with a badge and a list of names. -/
def memberShape : Shape :=
  .hole "<p>" (.choice [.text "guest", .text "member"])
    (.hole "</p>" (.loop (.hole "<li>" .value (.text "</li>"))) (.text ""))

/-- A page of that shape. -/
def memberPage (badge : Tree) (names : List String) : Tree :=
  .mk memberShape [.choice (some 0) (some badge),
    .loop (.hole "<li>" .value (.text "</li>"))
      (names.map fun name => .mk (.hole "<li>" .value (.text "</li>")) [.text name])]

/-- The badge becomes another template under the same branch. The names are kept, or one of them
changes. -/
theorem memberPage_brings_content :
    (∃ p, patchFrom (· = [1]) (some (memberPage (.mk (.text "guest") []) ["Ada", "Bo"]))
          (memberPage (.mk (.text "admin") []) ["Ada", "Bo"]) = .ok p ∧
        p.applyTo (some (memberPage (.mk (.text "guest") []) ["Ada", "Bo"]).content) =
          some (memberPage (.mk (.text "admin") []) ["Ada", "Bo"]).content) ∧
      ∃ p, patchFrom .nowhere (some (memberPage (.mk (.text "guest") []) ["Ada", "Bo"]))
          (memberPage (.mk (.text "admin") []) ["Ada", "Cy"]) = .ok p ∧
        p.applyTo (some (memberPage (.mk (.text "guest") []) ["Ada", "Bo"]).content) =
          some (memberPage (.mk (.text "admin") []) ["Ada", "Cy"]).content := by
  have hwf (s : String) (name : String) :
      (memberPage (.mk (.text s) []) ["Ada", name]).WellFormed := by
    simp [memberPage, memberShape, WellFormed, WellFormedEach, WellFormedFilling, EntriesOf,
      Tree.shape, Shape.arity, Shape.holes]
  have hfree (name : String) : (memberPage (.mk (.text "admin") []) ["Ada", name]).Streamless := by
    simp [memberPage, Streamless, StreamlessEach, StreamlessFilling, StreamlessTrees]
  refine ⟨(patchFrom_brings_content (hwf "guest" "Bo") (hwf "admin" "Bo") (hfree "Bo")
      (.inl ?_)).1,
    (patchFrom_brings_content (hwf "guest" "Bo") (hwf "admin" "Cy") (hfree "Cy")
      (.inl (keptBy_nowhere _ _))).1⟩
  -- at the only place where a list was kept, the names are
  intro place old before new after hmeets hkept
  obtain rfl : place = [1] := of_decide_eq_true hkept
  obtain ⟨hf, hg, hmeets⟩ := hmeets
  cases hmeets with
  | here => exact Option.some.inj (hf.symm.trans hg)
  | branch _ => cases hf

end Tree

end ViewSync
