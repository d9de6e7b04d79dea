import ViewSync.Proofs.Roster.Homes
import ViewSync.Proofs.View.Behind
import ViewSync.Proofs.View.Delivery
import ViewSync.Proofs.View.Leaving

/-!
# Components in stream entries

In a run where each component is referred to from one stream entry only, or from outside of entries
only, a component of an entry lives as long as the client holds the entry and the latest rendering
of the entry has seen the component.
-/

namespace ViewSync.View

open Roster

/-! ## Passes -/

/-- The marks of all that a pass has rendered. -/
def marks (v : View) (fuel : Nat) (page : Tree) : List Mark :=
  page.marks ++ (v.drawings fuel).flatMap Drawing.marks

theorem mem_marks_of_drawn {v : View} {fuel : Nat} {page t : Tree} {d : Drawing} {m : Mark}
    (hd : d ∈ v.drawings fuel) (ht : d.result = .ok t) (hm : m ∈ t.marks) :
    m ∈ v.marks fuel page := by
  refine List.mem_append_right _ (List.mem_flatMap.mpr ⟨d, hd, ?_⟩)
  rwa [Drawing.marks_eq ht]

/-- A pass that went well: the view that it was for, its page, and its state before it is closed. -/
structure PassRecord where
  /-- The view before the pass. -/
  view : View
  /-- How many components it may render. -/
  fuel : Nat
  /-- The page that it sends. -/
  page : Tree
  /-- Its last state, before it is closed. -/
  pass : Pass

namespace PassRecord

/-- The marks of a pass. -/
def marks (x : PassRecord) : List Mark := x.view.marks x.fuel x.page

/-- A pass refers to the component of an id, inside of a stream entry or not. -/
def Refers (x : PassRecord) (owner : Option StreamEntry) (id : String) : Prop :=
  ∃ h, .slot owner h ∈ x.marks ∧ x.pass.roster.handle? id = some h

instance (x : PassRecord) (owner : Option StreamEntry) (id : String) :
    Decidable (x.Refers owner id) :=
  decidable_of_iff ((x.pass.roster.handle? id).any fun h => .slot owner h ∈ x.marks) <| by
    simp [Refers, Option.any_eq_true, and_comm]

/-- A pass spares a component that it has seen, though it does not refer to it. -/
def Spares (x : PassRecord) (owner : Option StreamEntry) (id : String) : Prop :=
  ¬x.Refers owner id ∧
    ∃ h, x.view.roster.handle? id = some h ∧ h ∈ x.pass.roster.seen

/-- Every component is referred to from its home. -/
def Homely (home : String → Option StreamEntry) (x : PassRecord) : Prop :=
  ∀ owner id, x.Refers owner id → owner = home id

end PassRecord

/-- What the marks of a pass tell of components, entries and flushes at its end. -/
structure Housed (home : String → Option StreamEntry) (x : PassRecord) : Prop where
  /-- Components are owned by their homes. -/
  owner : ∀ h c, x.pass.roster.get? h = some c → c.owner = home c.id
  /-- Ids from before the pass keep their handles. -/
  kept : ∀ id h, x.view.roster.handle? id = some h → x.pass.roster.handle? id = some h
  /-- A new id was referred to, from its home. -/
  fresh : ∀ id h, x.pass.roster.handle? id = some h →
    x.view.roster.handle? id = some h ∨ .slot (home id) h ∈ x.marks
  /-- A slot points at a component that is at home there. -/
  known : ∀ owner h, .slot owner h ∈ x.marks →
    ∃ id, home id = owner ∧ x.pass.roster.handle? id = some h
  /-- The entries that were drawn are those that are marked. -/
  drawn : ∀ e, e ∈ x.pass.roster.drawn ↔ .entry e ∈ x.marks
  /-- The marks are complete. -/
  complete : Mark.Complete none x.marks
  /-- What the pass refers to is what slots point at. -/
  handles : ∀ h, x.view.References x.fuel x.page h ↔ ∃ owner, .slot owner h ∈ x.marks
  /-- A flush that was taken went to a hole. -/
  taken : ∀ name f, x.view.opened.flushes.get? name = some f →
    x.pass.flushes.get? name = none → .hole name (some f.edits) ∈ x.marks

variable {S : Shape → Prop} {home : String → Option StreamEntry} {v : View} {fuel : Nat}
variable {done : Rendering} {p p₁ p₂ : Pass} {root : Tree} {rs : Refs}
variable {fs : List (String × Stream.Flush)} {former : FormerTrees}

/-- A pass without failures is told by the actions that its trees recall. -/
theorem Account.retold (ha : Account S v fuel done p root rs fs p₁ p₂ former)
    (herrors : p.errors = []) (hrest : v.roster.Resting) (hsent : ∀ t, v.sent = some t → t.Fits) :
    ∃ acts, acts.map Pass.Action.mark = v.marks fuel root ∧ Retold home v.opened acts p₂ := by
  have hready : v.opened.roster.Ready :=
    (hrest.arena.ready hrest.stillborn).congr rfl rfl rfl rfl
  obtain ⟨acts, hacts, hrecalls⟩ := ha.smooth_root herrors hsent
  have hroot : Retold home v.opened acts p₁ := (Retold.start hready).course hacts
  obtain ⟨more, hmarks, hretold⟩ := ha.drains.retold ha.kinds ha.redrawn
    (hacts.named v.named_opened) hroot (ha.errors ▸ herrors)
  refine ⟨acts ++ more, ?_, hretold⟩
  rw [List.map_append, hmarks, ← hrecalls]
  rfl

section Account

variable (ha : Account S v fuel done p root rs fs p₁ p₂ former) (herrors : p.errors = [])
variable (hrest : v.roster.Resting)
include ha

theorem Account.fits_drawn {d : Drawing} {t : Tree} (hd : d ∈ v.drawings fuel)
    (ht : d.result = .ok t) : t.Fits := ha.drains.fits ha.kinds ha.redrawn hd ht

include herrors hrest

/-- The marks of a pass are complete. -/
theorem Account.complete_marks : Mark.Complete none (v.marks fuel root) := by
  refine (root.shape.complete_marks none root.fillings ha.fits).append (.flatMap fun d hd => ?_)
  obtain ⟨t, ht, -⟩ := (ha.sighted_drained hrest herrors).2.2 d hd
  rw [Drawing.marks_eq ht]
  exact t.shape.complete_marks none t.fillings (ha.fits_drawn hd ht)

/-- What a pass refers to can be told from its marks. -/
theorem Account.references_iff {h : Handle} :
    v.References fuel root h ↔ ∃ owner, .slot owner h ∈ v.marks fuel root := by
  simp only [References, marks, List.mem_append, List.mem_flatMap, exists_or]
  refine or_congr ha.fits.mem_handles ⟨?_, ?_⟩
  · rintro ⟨d, hd, t, ht, hin⟩
    obtain ⟨owner, hin⟩ := (ha.fits_drawn hd ht).mem_handles.mp hin
    exact ⟨owner, d, hd, (Drawing.marks_eq ht).symm ▸ hin⟩
  · rintro ⟨owner, d, hd, hin⟩
    obtain ⟨t, ht, -⟩ := (ha.sighted_drained hrest herrors).2.2 d hd
    rw [Drawing.marks_eq ht] at hin
    exact ⟨d, hd, t, ht, (ha.fits_drawn hd ht).mem_handles.mpr ⟨owner, hin⟩⟩

variable (hsent : ∀ t, v.sent = some t → t.Fits)
include hsent

/-- The edits in what was rendered are those of the flushes that were taken. -/
theorem Account.hole_iff {name : String} {e : StreamEdits} :
    .hole name (some e) ∈ v.marks fuel root ↔
      ∃ f, v.opened.flushes.get? name = some f ∧ p.flushes.has name = false ∧ e = f.edits := by
  obtain ⟨acts, hmarks, hretold⟩ : ∃ acts, acts.map Pass.Action.mark = v.marks fuel root ∧
      Retold (fun _ => none) v.opened acts p₂ := ha.retold herrors hrest hsent
  rw [← hmarks, Pass.hole_mem_marks]
  refine exists_congr fun f => ?_
  rw [hretold.taken, ha.flushes, Keyed.has, Option.isSome_eq_false_iff, Option.isNone_iff_eq_none,
    and_assoc, eq_comm (a := e)]

/-- **What a pass without failures comes to can be told from its marks**, if it refers to every
component from its home. -/
theorem Account.housed (howner : ∀ h c, v.roster.get? h = some c → c.owner = home c.id)
    (hhome : PassRecord.Homely home ⟨v, fuel, root, p⟩) : Housed home ⟨v, fuel, root, p⟩ := by
  obtain ⟨acts, hmarks, hretold⟩ : ∃ acts, acts.map Pass.Action.mark = v.marks fuel root ∧
      Retold home v.opened acts p₂ := ha.retold herrors hrest hsent
  obtain ⟨hborn, -, -⟩ := ha.sighted_drained hrest herrors
  have hdrop : p₂.roster.dropStillborn = p₂.roster := by
    rw [dropStillborn, hborn]
    rfl
  have hids (id : String) (h : Handle) : p.roster.handle? id = some h ↔
      v.roster.handle? id = some h ∨ ∃ owner, .refer owner id h ∈ acts := by
    rw [handle?, ha.ids, hdrop]
    exact hretold.ids id h
  have hslot {owner : Option StreamEntry} {h : Handle} :
      .slot owner h ∈ v.marks fuel root ↔ ∃ id, .refer owner id h ∈ acts :=
    hmarks ▸ Pass.slot_mem_marks
  have hrefers {owner : Option StreamEntry} {id : String} {h : Handle}
      (hin : .refer owner id h ∈ acts) : owner = home id :=
    hhome owner id ⟨h, hslot.mpr ⟨id, hin⟩, (hids id h).mpr (.inr ⟨owner, hin⟩)⟩
  refine ⟨fun h c hc => ?_, fun id h hid => (hids id h).mpr (.inl hid), fun id h hid => ?_,
    fun owner h hin => ?_, fun e => ?_, ha.complete_marks herrors hrest,
    fun h => ha.references_iff herrors hrest, fun name f hf hnone => ?_⟩
  · exact hretold.owner howner (fun _ _ _ hin => hrefers hin) h c (ha.get?_eq hborn h ▸ hc)
  · refine ((hids id h).mp hid).imp_right ?_
    rintro ⟨owner, hin⟩
    exact hrefers hin ▸ hslot.mpr ⟨id, hin⟩
  · obtain ⟨id, hin⟩ := hslot.mp hin
    exact ⟨id, (hrefers hin).symm, (hids id h).mpr (.inr ⟨owner, hin⟩)⟩
  · change e ∈ p.roster.drawn ↔ .entry e ∈ v.marks fuel root
    rw [ha.drawn, hdrop, hretold.drawn, ← hmarks, Pass.entry_mem_marks]
    exact or_iff_right (hrest.drawn ▸ List.not_mem_nil)
  · refine (ha.hole_iff herrors hrest hsent).mpr ⟨f, hf, ?_, rfl⟩
    rw [Keyed.has, hnone]
    rfl

end Account

/-- A key comes up at the client with an entry that is rendered. -/
theorem Housed.entry_of_holds {x : PassRecord} (hx : Housed home x)
    (hnum : x.view.streams.Numbered) (done : Rendering) {e : StreamEntry}
    (hafter : (x.view.settle x.view.streams.plans done x.pass).2.streams.holds e = true) :
    x.view.streams.holds e = true ∨ .entry e ∈ x.marks := by
  have hheld (s : Streams) : s.holds e = true ↔ ∃ t, s.get? e.stream = some t ∧ e.key ∈ t.held := by
    simp [Streams.holds, Streams.held?, Option.any_eq_true]
  rw [hheld] at hafter ⊢
  obtain ⟨t, ht, hkey⟩ := hafter
  cases hs : x.view.streams.get? e.stream with
  | none =>
      rw [streams_settle hnum, hs] at ht
      cases ht
  | some s =>
      cases hwait : s.isWaiting with
      | false =>
          rw [get?_settle_idle hnum hs hwait] at ht
          obtain rfl := Option.some.inj ht
          exact .inl ⟨s, rfl, hkey⟩
      | true =>
          rw [get?_settle_streams hnum hs hwait] at ht
          obtain rfl := Option.some.inj ht
          split at hkey
          · exact .inl ⟨s, rfl, hkey⟩
          · next htaken =>
              have hplan : e.key ∈ (s.plan e.stream).held := hkey
              refine (Stream.mem_plan hplan).imp (fun hold => ⟨s, rfl, hold⟩) ?_
              rintro ⟨i, hi, heq⟩
              have hnone : x.pass.flushes.get? e.stream = none := by
                simpa [Keyed.has] using htaken
              have hhole := hx.taken e.stream _ (get?_flushes_opened hnum hs hwait) hnone
              have hentry := hx.complete.hole _ _ hhole _ (List.mem_map_of_mem hi)
              rwa [heq] at hentry

end ViewSync.View
