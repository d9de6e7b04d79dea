import ViewSync.Roster.Passes
import ViewSync.Proofs.Keyed

/-!
# Records and references

What the operations of a roster do to its records, and all that a reference to a component can do.
A reference either leaves the records alone, or hands props to one that is live, or makes a new one;
the rest of what it does is to note handles as seen and to queue them.
-/

namespace ViewSync.Roster

/-! ## Looking up records -/

theorem get?_eq_some_iff {r : Roster} {h : Handle} {c : Component} :
    r.get? h = some c ↔ r.slots[h]? = some (some c) :=
  Option.join_eq_some_iff

theorem lt_of_get? {r : Roster} {h : Handle} {c : Component} (hc : r.get? h = some c) :
    h < r.slots.length := by
  rw [get?_eq_some_iff] at hc
  exact (List.getElem?_eq_some_iff.mp hc).1

theorem get?_of_empty {r : Roster} {h : Handle} (he : r.slots[h]? = some none) :
    r.get? h = none := by
  simp [get?, he]

theorem get?_put {r : Roster} {h : Handle} (hlt : h < r.slots.length) (c : Component) (k : Handle) :
    (r.put h c).get? k = if k = h then some c else r.get? k := by
  unfold get? put
  by_cases hk : k = h
  · subst hk
    simp [hlt]
  · simp [hk, List.getElem?_set_ne (Ne.symm hk)]

theorem get?_vacate (r : Roster) (h k : Handle) :
    (r.vacate h).get? k = if k = h then none else r.get? k := by
  unfold get? vacate
  by_cases hk : k = h
  · subst hk
    by_cases hlt : k < r.slots.length
    · simp [hlt]
    · have hout : (r.slots.set k none)[k]? = none := by
        rw [List.getElem?_eq_none_iff, List.length_set]
        exact Nat.le_of_not_lt hlt
      simp [hout]
  · simp [hk, List.getElem?_set_ne (Ne.symm hk)]

theorem length_put (r : Roster) (h : Handle) (c : Component) :
    (r.put h c).slots.length = r.slots.length := List.length_set

theorem length_vacate (r : Roster) (h : Handle) :
    (r.vacate h).slots.length = r.slots.length := List.length_set

theorem put_vacate (r : Roster) (h : Handle) (c : Component) :
    (r.vacate h).put h c = r.put h c := by
  simp [put, vacate]

theorem put_put (r : Roster) (h : Handle) (c d : Component) : (r.put h c).put h d = r.put h d := by
  simp [put]

theorem put_self {r : Roster} {h : Handle} {c : Component} (hc : r.get? h = some c) :
    r.put h c = r := by
  rw [get?_eq_some_iff] at hc
  obtain ⟨hlt, heq⟩ := List.getElem?_eq_some_iff.mp hc
  have hset : r.slots.set h (some c) = r.slots := by rw [← heq, List.set_getElem_self]
  simp [put, hset]

/-! ## New handles and records -/

/-- The handle is one to spare, or a new one when there is none. -/
theorem takeHandle_cases (r : Roster) :
    (∃ rest, r.spare = r.takeHandle.1 :: rest ∧ r.takeHandle.2 = { r with spare := rest }) ∨
      (r.spare = [] ∧ r.takeHandle.1 = r.slots.length ∧
        r.takeHandle.2 = { r with slots := r.slots ++ [none] }) := by
  unfold takeHandle
  cases r.spare with
  | nil => exact .inr ⟨rfl, rfl, rfl⟩
  | cons h rest => exact .inl ⟨rest, rfl, rfl⟩

/-- Give a handle to a new component. -/
def create (r : Roster) (id : String) (kind : KindRef) (assigns : Assigns)
    (owner : Option StreamEntry) : Roster :=
  let (h, r) := r.takeHandle
  let r := r.put h { id, handle := h, kind, assigns, owner }
  { r with ids := r.ids.insert id h }.recordUndo fun u => { u with born := u.born ++ [h] }

/-- A new record changes neither the queue nor what is known of stream entries and of failures. -/
theorem create_rest (r : Roster) (id : String) (kind : KindRef) (assigns : Assigns)
    (owner : Option StreamEntry) :
    r.create id kind assigns owner =
      { r with
        slots := (r.create id kind assigns owner).slots
        ids := r.ids.insert id r.takeHandle.1
        spare := r.spare.tail
        undo := r.undo.map fun u => { u with born := u.born ++ [r.takeHandle.1] } } := by
  rcases takeHandle_cases r with ⟨rest, hspare, hroster⟩ | ⟨hspare, _, hroster⟩
  · simp only [create, recordUndo, put, hroster, hspare, List.tail_cons]
  · simp only [create, recordUndo, put, hroster, hspare, List.tail_nil]

/-- Hand props to a component that is live. -/
def handOver (kinds : Kinds) (r : Roster) (h : Handle) (c : Component) (props : Fields)
    (owner : Option StreamEntry) : Roster :=
  (r.keepState c).put h
    { c with assigns := ((kinds c.kind.key).update props c.assigns).1, owner := owner <|> c.owner }

/-! ## References -/

/-- What a reference can come to, and the roster afterwards. -/
inductive Referral (kinds : Kinds) (r : Roster) (id : String) (kind : KindRef) (props : Fields)
    (owner : Option StreamEntry) : Except Error (Handle × Bool) → Roster → Prop where
  /-- The kind is another one, there may be no more components, or a new one cannot be made. -/
  | refused (e : Error) : Referral kinds r id kind props owner (.error e) r
  /-- The first render of the component failed in this pass. -/
  | stillborn {h : Handle} : r.handle? id = some h → h ∈ r.stillborn →
      Referral kinds r id kind props owner (.ok (h, false)) r
  /-- The component refers to itself. -/
  | inside {h : Handle} : r.handle? id = some h → r.get? h = none →
      Referral kinds r id kind props owner (.ok (h, false)) (r.see h)
  /-- It does not take the props. -/
  | failed {h : Handle} {c : Component} {e : Error} : r.handle? id = some h → h ∉ r.stillborn →
      r.get? h = some c → ((kinds c.kind.key).update props c.assigns).2 = some e →
      Referral kinds r id kind props owner (.error e) (r.handOver kinds h c props owner)
  /-- It has to be rendered. -/
  | stale {h : Handle} {c : Component} : r.handle? id = some h → h ∉ r.stillborn →
      r.get? h = some c → ((kinds c.kind.key).update props c.assigns).2 = none →
      Referral kinds r id kind props owner (.ok (h, true))
        (((r.handOver kinds h c props owner).see h).schedule h)
  /-- It is as it was. -/
  | unchanged {h : Handle} {c : Component} : r.handle? id = some h → h ∉ r.stillborn →
      r.get? h = some c → ((kinds c.kind.key).update props c.assigns).2 = none →
      Referral kinds r id kind props owner (.ok (h, false))
        ((r.handOver kinds h c props owner).follow h)
  /-- It is a new one. -/
  | created {a b : Assigns} : r.handle? id = none → (kinds kind.key).mount Assigns.empty = .ok a →
      (kinds kind.key).update props a = (b, none) →
      Referral kinds r id kind props owner (.ok (r.takeHandle.1, true))
        (((r.create id kind b owner).see r.takeHandle.1).schedule r.takeHandle.1)

theorem recordUndo_see_schedule (r : Roster) (h : Handle) (f : Undo → Undo) :
    ((r.see h).schedule h).recordUndo f = ((r.recordUndo f).see h).schedule h := by
  by_cases hq : h ∈ r.queue <;> simp [schedule, see, recordUndo, hq]

theorem referNew_spec (kinds : Kinds) {r : Roster} {id : String} (kind : KindRef) (props : Fields)
    (owner : Option StreamEntry) (hid : r.handle? id = none) :
    Referral kinds r id kind props owner (r.referNew kinds id kind props owner).1
      (r.referNew kinds id kind props owner).2 := by
  unfold referNew
  split
  · exact .refused _
  · next a hmount =>
      split
      · exact .refused _
      · next b hupdate =>
          have hnew : Referral kinds r id kind props owner _ _ := .created hid hmount hupdate
          unfold create at hnew
          rw [← recordUndo_see_schedule] at hnew
          exact hnew

theorem referLive_spec (kinds : Kinds) {r : Roster} {id : String} {h : Handle} {c : Component}
    (kind : KindRef) (props : Fields) (owner : Option StreamEntry) (hid : r.handle? id = some h)
    (hborn : h ∉ r.stillborn) (hc : r.get? h = some c) :
    Referral kinds r id kind props owner (r.referLive kinds h c props owner).1
      (r.referLive kinds h c props owner).2 := by
  unfold referLive
  cases hu : (kinds c.kind.key).update props c.assigns with
  | mk a failure =>
      have hover : (r.keepState c).put h { c with assigns := a, owner := owner <|> c.owner }
          = r.handOver kinds h c props owner := by
        simp [handOver, hu]
      cases failure with
      | some e =>
          simp only [hover]
          exact .failed hid hborn hc (by rw [hu])
      | none =>
          simp only [hover]
          split
          · exact .stale hid hborn hc (by rw [hu])
          · exact .unchanged hid hborn hc (by rw [hu])

/-- **All that a reference can do.** -/
theorem refer_spec (kinds : Kinds) (r : Roster) (id : String) (kind : KindRef) (props : Fields)
    (owner : Option StreamEntry) :
    Referral kinds r id kind props owner (r.refer kinds id kind props owner).1
      (r.refer kinds id kind props owner).2 := by
  unfold refer
  cases hid : r.handle? id with
  | some h =>
      dsimp only
      split
      · next hborn => exact .stillborn hid hborn
      · next hborn =>
          cases hc : r.get? h with
          | none => exact .inside hid hc
          | some c =>
              dsimp only
              split
              · exact .refused _
              · exact referLive_spec kinds kind props owner hid hborn hc
  | none =>
      dsimp only
      split
      · split
        · exact .refused _
        · exact referNew_spec kinds kind props owner hid
      · exact referNew_spec kinds kind props owner hid

end ViewSync.Roster
