import ViewSync.Proofs.Patch.Plain
import ViewSync.Proofs.Roster.Moves
import ViewSync.Proofs.Roster.Patches
import ViewSync.Proofs.Run

/-!
# What the wire form of a message determines

A message is told from its wire form: the patch of the root, the patches of components by handle,
the handles of components that are gone, and the events, each section of which is left out when it
has nothing to say. This takes positions and handles that go up, which they do in every message that
a pass makes, whatever state the view was in.
-/

namespace ViewSync

namespace Message

/-! ## Messages that are the same -/

/-- The same message, but for streams with nothing to do and lists of the same texts and rows.
Payloads are the same when they are the same JSON. -/
structure Same (m n : Message) : Prop where
  /-- The patches of the page are the same. -/
  root : m.root.plain = n.root.plain
  /-- So are those of components. -/
  components : Keyed.Related (fun p q => p.plain = q.plain) m.components n.components
  /-- The same handles are told. -/
  gone : m.gone = n.gone
  /-- The same events are sent. -/
  events : List.Forall₂ (fun d e => d.name = e.name ∧ d.payload.Agrees e.payload) m.events n.events

/-- The positions in a message go up, and so do the handles of its components. -/
structure Ordered (m : Message) : Prop where
  /-- The positions in the patch of the page go up. -/
  root : m.root.Ordered
  /-- The handles of components go up. -/
  handles : m.components.Sorted
  /-- The positions in their patches go up. -/
  components : ∀ e ∈ m.components, e.2.Ordered

/-! ## Sections -/

/-- A list as a section, which is left out when the list is empty. -/
def unlessEmpty {α : Type} (value : List α → Value) (items : List α) : Option Value :=
  if items.isEmpty then none else some (value items)

theorem listField_eq {α : Type} (name : String) (items : List α) (value : List α → Value) :
    listField name items value = ((unlessEmpty value items).map (Prod.mk name)).toList := by
  unfold listField unlessEmpty
  split <;> rfl

/-- The patches of components. -/
def componentsValue (ps : List (Handle × Patch)) : Value := .obj (Patch.wireChanges ps)

/-- The handles of components that are gone. -/
def goneValue (hs : List Handle) : Value := .arr (hs.map fun (h : Handle) => .int h)

/-- Events. -/
def eventsValue (es : List Event) : Value := .arr (es.map wireEvent)

theorem wire_eq_sheet (m : Message) :
    m.wire = .sheet m.root.byPosition
      [("s", m.root.newTexts), ("c", unlessEmpty componentsValue m.components),
        ("cr", unlessEmpty goneValue m.gone), ("e", unlessEmpty eventsValue m.events)] := by
  have hwire : m.wire = .obj (m.root.wireFields ++ listField "c" m.components componentsValue
      ++ listField "cr" m.gone goneValue ++ listField "e" m.events eventsValue) := rfl
  rw [hwire, Patch.wireFields_eq, listField_eq, listField_eq, listField_eq, Value.sheet,
    Value.sheetFields, Value.sheetFields]
  cases m.root.newTexts <;> cases unlessEmpty componentsValue m.components <;>
    cases unlessEmpty goneValue m.gone <;> cases unlessEmpty eventsValue m.events <;> simp

/-- An empty list is told from all others by being left out. -/
theorem rel_unlessEmpty {α : Type} {value : List α → Value} {xs ys : List α} {same : Prop}
    (hempty : same → xs.isEmpty = ys.isEmpty) (h : (value xs).Agrees (value ys) ↔ same) :
    Option.Rel Value.Agrees (unlessEmpty value xs) (unlessEmpty value ys) ↔ same := by
  cases xs with
  | nil =>
      cases ys with
      | nil => simpa [unlessEmpty] using h.mp (Value.agrees_refl _)
      | cons y ys => simpa [unlessEmpty] using hempty
  | cons x xs =>
      cases ys with
      | nil => simpa [unlessEmpty] using hempty
      | cons y ys => simpa [unlessEmpty] using h

theorem isEmpty_of_forall₂ {α β : Type} {R : α → β → Prop} {xs : List α} {ys : List β}
    (h : List.Forall₂ R xs ys) : xs.isEmpty = ys.isEmpty := by
  cases h <;> rfl

theorem agrees_componentsValue {ps qs : Keyed Handle Patch} (hps : ps.Sorted) (hqs : qs.Sorted)
    (hp : ∀ e ∈ ps, e.2.Ordered) (hq : ∀ e ∈ qs, e.2.Ordered) :
    (componentsValue ps).Agrees (componentsValue qs) ↔
      Keyed.Related (fun p q => p.plain = q.plain) ps qs := by
  have hplain : Keyed.Related (fun p q => p.wire.Agrees q.wire) ps qs ↔
      Keyed.Related (fun p q => p.plain = q.plain) ps qs :=
    Keyed.related_congr fun a ha b hb => Patch.agrees_iff_plain (hp a ha) (hq b hb)
  rw [componentsValue, componentsValue, Patch.obj_wireChanges, Patch.obj_wireChanges,
    Value.agrees_face (Keyed.sorted_map hps _) (Keyed.sorted_map hqs _), Keyed.related_map_iff,
    hplain]
  simp

theorem agrees_goneValue {hs ks : List Handle} :
    (goneValue hs).Agrees (goneValue ks) ↔ hs = ks :=
  Value.agrees_arr_map fun _ _ => Value.agrees_nat

theorem agrees_eventsValue (ds es : List Event) :
    (eventsValue ds).Agrees (eventsValue es) ↔
      List.Forall₂ (fun d e => d.name = e.name ∧ d.payload.Agrees e.payload) ds es := by
  rw [eventsValue, eventsValue, Value.agrees_arr, List.forall₂_map_left_iff,
    List.forall₂_map_right_iff]
  simp [wireEvent, Value.agrees_arr]

/-- **The wire form of a message determines it.** -/
theorem agrees_iff_same {m n : Message} (hm : m.Ordered) (hn : n.Ordered) :
    m.wire.Agrees n.wire ↔ m.Same n := by
  have hs : IsWord "s" := isWord_of_not_digit (c := 's') (by simp) rfl
  have hc : IsWord "c" := isWord_of_not_digit (c := 'c') (by simp) rfl
  have hcr : IsWord "cr" := isWord_of_not_digit (c := 'c') (by simp) rfl
  have he : IsWord "e" := isWord_of_not_digit (c := 'e') (by simp) rfl
  have hcomponents := rel_unlessEmpty isEmpty_of_forall₂
    (agrees_componentsValue hm.handles hn.handles hm.components hn.components)
  have hgone : Option.Rel Value.Agrees (unlessEmpty goneValue m.gone)
      (unlessEmpty goneValue n.gone) ↔ m.gone = n.gone :=
    rel_unlessEmpty (congrArg List.isEmpty) agrees_goneValue
  have hevents := rel_unlessEmpty isEmpty_of_forall₂ (agrees_eventsValue m.events n.events)
  have hroot := Patch.agrees_parts hm.root hn.root
  rw [Patch.agrees_iff_plain hm.root hn.root] at hroot
  rw [wire_eq_sheet, wire_eq_sheet]
  refine Iff.trans (Value.agrees_sheet (Patch.sorted_byPosition hm.root)
    (Patch.sorted_byPosition hn.root) rfl (by simp) (by simp [hs, hc, hcr, he])) ?_
  simp only [Keyed.Related.cons_iff, Keyed.Related.nil, hcomponents, hgone, hevents, true_and,
    and_true]
  constructor
  · rintro ⟨hslots, htexts, hps, hhs, hes⟩
    exact ⟨hroot.mpr ⟨hslots, htexts⟩, hps, hhs, hes⟩
  · rintro ⟨hplain, hps, hhs, hes⟩
    obtain ⟨hslots, htexts⟩ := hroot.mp hplain
    exact ⟨hslots, htexts, hps, hhs, hes⟩

end Message

/-! ## Messages of passes -/

namespace Roster

theorem sorted_former {kinds : Kinds} {m₀ m : Moment} (h : Moves kinds m₀ m)
    (hm₀ : m₀.former.Sorted) : m.former.Sorted := by
  induction h with
  | refl => exact hm₀
  | tail _ hmove ih =>
      cases hmove with
      | redraw t => exact Keyed.sorted_insertNew ih _ _
      | file => exact Keyed.sorted_nil
      | _ => exact ih

/-- The patches of components come in the order of their handles, with their positions in order. -/
theorem ordered_renderQueue {host : Host} {fuel : Nat} {p p' : Pass} {ps : Keyed Handle Patch}
    (h : renderQueue host fuel p = some (.ok ps, p')) :
    ps.Sorted ∧ ∀ e ∈ ps, e.2.Ordered := by
  obtain ⟨former, p₁, r, hd, hpatches, -⟩ := renderQueue_ok h
  have hsorted : former.Sorted := sorted_former (moves_drain .refl hd) Keyed.sorted_nil
  have hcompared := compared_patches (Keyed.nodup_keys hsorted) hpatches
  refine ⟨?_, fun e he => ?_⟩
  · exact List.pairwise_map.mp ((List.pairwise_map.mpr hsorted).sublist hcompared.keys)
  · obtain ⟨_, _, _, -, -, -, hpatch⟩ := hcompared.sound e.1 e.2 he
    exact Tree.patchFrom_ordered hpatch

end Roster

namespace View

theorem ordered_render {v v' : View} {fuel : Nat} {o : Outcome}
    (h : v.render fuel = some (.ok o, v')) : o.message.Ordered := by
  obtain ⟨done, p, hall, rfl, -⟩ := render_ok h
  obtain ⟨root, p₁, -, hqueue, -, hpatch⟩ := renderAll_ok hall
  obtain ⟨hsorted, hordered⟩ := Roster.ordered_renderQueue hqueue
  exact ⟨Tree.patchFrom_ordered hpatch, hsorted.filter _,
    fun e he => hordered e (List.mem_of_mem_filter he)⟩

/-- **What a client is sent is all there on the wire.** Two passes, of whichever views, send the
same JSON exactly if they send the same message. -/
theorem wire_agrees_iff {v v' w w' : View} {fuel fuel' : Nat} {o o' : Outcome}
    (hv : v.render fuel = some (.ok o, v')) (hw : w.render fuel' = some (.ok o', w')) :
    o.message.wire.Agrees o'.message.wire ↔ o.message.Same o'.message :=
  Message.agrees_iff_same (ordered_render hv) (ordered_render hw)

section Posts

private def postEntry : Template :=
  .hole "<li>" (.value .anything fun s => s.value ⟨"post", []⟩) (.text "</li>")

private def postsHost : Host := ⟨fun _ => Kind.ofTemplate (.text ""), {}⟩

/-- A stream that nothing was put into. -/
private def postStream : Hole := .stream "posts" "post" postEntry

/-- A list of nothing. -/
private def postList : Hole := .loop (.paths []) (fun _ => .ok []) "post" postEntry

/-- A page with one hole, of which the client is told that it was opened. -/
private def postsPage (hole : Hole) (payload : Value) : View :=
  (ofTemplate postsHost (.hole "<ul>" hole (.text "</ul>"))).notify ⟨"opened", payload⟩

private def postsMessage (slot : Slot) (payload : Value) : Message :=
  ⟨.replace (.mk ["<ul>", "</ul>"] [slot]), [], [], [⟨"opened", payload⟩]⟩

private theorem render_postStream (payload : Value) : ∃ o v,
    (postsPage postStream payload).render 0 = some (.ok o, v) ∧
      o.message = postsMessage (.stream ["<li>", "</li>"] none []) payload :=
  ⟨_, _, rfl, rfl⟩

private theorem render_postList (payload : Value) : ∃ o v,
    (postsPage postList payload).render 0 = some (.ok o, v) ∧
      o.message = postsMessage (.rows ["<li>", "</li>"] []) payload :=
  ⟨_, _, rfl, rfl⟩

/-- An empty stream and an empty list are two things, and the client is told of them alike. -/
theorem posts_agree : ∃ o v o' w,
    (postsPage postStream (.obj [("page", .int 1), ("size", .int 10)])).render 0 = some (.ok o, v) ∧
    (postsPage postList (.obj [("size", .int 10), ("page", .int 1)])).render 0 = some (.ok o', w) ∧
    o.message.root ≠ o'.message.root ∧ o.message.wire.Agrees o'.message.wire := by
  obtain ⟨o, v, hv, ho⟩ := render_postStream (.obj [("page", .int 1), ("size", .int 10)])
  obtain ⟨o', w, hw, ho'⟩ := render_postList (.obj [("size", .int 10), ("page", .int 1)])
  refine ⟨o, v, o', w, hv, hw, ?_, (wire_agrees_iff hv hw).mpr ?_⟩
  · rw [ho, ho']
    exact fun h => nomatch h
  · rw [ho, ho']
    exact ⟨rfl, .nil, rfl, .cons ⟨rfl, by decide⟩ .nil⟩

end Posts

end View

end ViewSync
