import ViewSync.Proofs.Roster.Arena

/-!
# What undoing does

Undoing goes in four rounds: records that were dropped come back, handles that were given out are
taken back, and assigns with owners and then trees are put as they were. Each round is described by
what it does to every look-up, and the first two keep the table of ids in step with the records.
-/

namespace ViewSync.Roster

/-- The table of ids lists the records that are live. -/
def Linked (r : Roster) : Prop :=
  ∀ id h, r.ids.get? id = some h ↔ ∃ c, r.get? h = some c ∧ c.id = id ∧ c.retired = false

/-! ## Records that come back -/

/-- Records that are in no slot, and may come back side by side. -/
structure Revivable (r : Roster) (cs : List Component) : Prop where
  /-- No two of them have a handle or an id in common. -/
  apart : cs.Pairwise fun c d => c.handle ≠ d.handle ∧ c.id ≠ d.id
  /-- Their slots are there. -/
  slot : ∀ c ∈ cs, c.handle < r.slots.length
  /-- Their slots are empty. -/
  empty : ∀ c ∈ cs, r.get? c.handle = none
  /-- Their ids are not in use. -/
  unlisted : ∀ c ∈ cs, r.ids.get? c.id = none
  /-- They are live. -/
  live : ∀ c ∈ cs, c.retired = false

/-- Marks do not matter. -/
theorem Revivable.congr {r r' : Roster} {cs : List Component} (h : Revivable r cs)
    (hslots : r'.slots = r.slots) (hids : r'.ids = r.ids) : Revivable r' cs where
  apart := h.apart
  slot c hc := by
    rw [hslots]
    exact h.slot c hc
  empty c hc := by
    have hget : r'.get? c.handle = r.get? c.handle := by rw [get?, get?, hslots]
    exact hget.trans (h.empty c hc)
  unlisted c hc := by
    rw [hids]
    exact h.unlisted c hc
  live := h.live

theorem Revivable.nil (r : Roster) : Revivable r [] :=
  ⟨List.Pairwise.nil, by simp, by simp, by simp, by simp⟩

theorem Revivable.tail {r : Roster} {c : Component} {cs : List Component}
    (h : Revivable r (c :: cs)) : Revivable r cs where
  apart := (List.pairwise_cons.mp h.apart).2
  slot d hd := h.slot d (List.mem_cons_of_mem _ hd)
  empty d hd := h.empty d (List.mem_cons_of_mem _ hd)
  unlisted d hd := h.unlisted d (List.mem_cons_of_mem _ hd)
  live d hd := h.live d (List.mem_cons_of_mem _ hd)

/-- They are apart from any record that is in its slot and listed. -/
theorem Revivable.apart_of_get? {r : Roster} {h : Handle} {c : Component} {cs : List Component}
    (hcs : Revivable r cs) (hc : r.get? h = some c) (hid : r.ids.get? c.id = some h) :
    ∀ d ∈ cs, d.handle ≠ h ∧ d.id ≠ c.id := by
  intro d hd
  refine ⟨?_, ?_⟩
  · rintro rfl
    cases (hcs.empty d hd).symm.trans hc
  · intro heq
    have hnone := hcs.unlisted d hd
    rw [heq, hid] at hnone
    cases hnone

/-- One record that is back in its slot and listed. -/
theorem Revivable.put {r : Roster} {c : Component} {cs : List Component}
    (h : Revivable r (c :: cs)) :
    Revivable { r.put c.handle c with ids := r.ids.insert c.id c.handle } cs := by
  obtain ⟨hapart, _⟩ := List.pairwise_cons.mp h.apart
  have hlt := h.slot c List.mem_cons_self
  refine ⟨h.tail.apart, ?_, ?_, ?_, h.tail.live⟩
  · intro d hd
    rw [length_put]
    exact h.tail.slot d hd
  · intro d hd
    change (r.put c.handle c).get? d.handle = none
    rw [get?_put hlt, if_neg (Ne.symm (hapart d hd).1)]
    exact h.tail.empty d hd
  · intro d hd
    rw [Keyed.get?_insert, if_neg (Ne.symm (hapart d hd).2)]
    exact h.tail.unlisted d hd

theorem Linked.revive {r : Roster} {c : Component} (hr : Linked r) (hlt : c.handle < r.slots.length)
    (hempty : r.get? c.handle = none) (hnew : r.ids.get? c.id = none) (hlive : c.retired = false) :
    Linked { r.put c.handle c with ids := r.ids.insert c.id c.handle } := by
  intro id h
  change (r.ids.insert c.id c.handle).get? id = some h ↔
    ∃ d, (r.put c.handle c).get? h = some d ∧ d.id = id ∧ d.retired = false
  rw [Keyed.get?_insert, get?_put hlt]
  by_cases hh : h = c.handle
  · subst hh
    have hold : r.ids.get? id ≠ some c.handle := by
      intro hold
      obtain ⟨d, hd, _⟩ := (hr id _).mp hold
      rw [hempty] at hd
      cases hd
    by_cases hid : id = c.id
    · simp [hid, hlive]
    · simp [hid, hold, Ne.symm hid]
  · rw [if_neg hh, ← hr id h]
    by_cases hid : id = c.id
    · subst hid
      simp [hnew, Ne.symm hh]
    · rw [if_neg hid]

theorem revive_all (born : List Handle) {cs : List Component} {r : Roster} (hr : Linked r)
    (hs : r.ids.Sorted) (hcs : Revivable r cs) :
    Linked (cs.foldl (revive born) r) ∧ (cs.foldl (revive born) r).ids.Sorted ∧
      (cs.foldl (revive born) r).slots.length = r.slots.length ∧
      (∀ k, k ∈ born → (cs.foldl (revive born) r).get? k = r.get? k) ∧
      ∀ k, k ∉ born →
        (cs.foldl (revive born) r).get? k = (r.get? k).or (cs.find? (·.handle = k)) := by
  induction cs generalizing r with
  | nil => exact ⟨hr, hs, rfl, fun _ _ => rfl, fun _ _ => by simp⟩
  | cons c cs ih =>
      by_cases hborn : c.handle ∈ born
      · -- a record whose handle was given out in the pass does not come back
        have hstep : revive born r c = r := if_pos hborn
        rw [List.foldl_cons, hstep]
        obtain ⟨hl, hs', hlen, hin, hout⟩ := ih hr hs hcs.tail
        refine ⟨hl, hs', hlen, hin, fun k hk => ?_⟩
        have hne : c.handle ≠ k := fun heq => hk (heq ▸ hborn)
        rw [hout k hk, List.find?_cons_of_neg (by simpa using hne)]
      · have hstep : revive born r c =
            { r.put c.handle c with ids := r.ids.insert c.id c.handle } := if_neg hborn
        have hlt := hcs.slot c List.mem_cons_self
        have hempty := hcs.empty c List.mem_cons_self
        rw [List.foldl_cons, hstep]
        obtain ⟨hl, hs', hlen, hin, hout⟩ := ih
          (hr.revive hlt hempty (hcs.unlisted c List.mem_cons_self) (hcs.live c List.mem_cons_self))
          (Keyed.sorted_insert hs _ _) hcs.put
        refine ⟨hl, hs', hlen.trans (length_put r _ _), fun k hk => ?_, fun k hk => ?_⟩
        · have hne : k ≠ c.handle := fun heq => hborn (heq ▸ hk)
          rw [hin k hk]
          exact (get?_put hlt c k).trans (if_neg hne)
        · rw [hout k hk]
          change ((r.put c.handle c).get? k).or _ = _
          rw [get?_put hlt]
          by_cases hkc : k = c.handle
          · subst hkc
            simp [hempty]
          · rw [if_neg hkc, List.find?_cons_of_neg (by simpa using Ne.symm hkc)]

/-! ## Handles that are taken back -/

theorem Linked.vacate {r : Roster} {h : Handle} {c : Component} (hr : Linked r)
    (hc : r.get? h = some c) (hlive : c.retired = false) :
    Linked { r.vacate h with ids := r.ids.erase c.id } := by
  have hlisted : r.ids.get? c.id = some h := (hr c.id h).mpr ⟨c, hc, rfl, hlive⟩
  intro id k
  change (r.ids.erase c.id).get? id = some k ↔
    ∃ d, (r.vacate h).get? k = some d ∧ d.id = id ∧ d.retired = false
  rw [Keyed.get?_erase, get?_vacate]
  by_cases hk : k = h
  · subst hk
    have hother : id ≠ c.id → r.ids.get? id ≠ some k := by
      intro hne hid
      obtain ⟨d, hd, hdid, _⟩ := (hr id k).mp hid
      rw [hc] at hd
      obtain rfl := Option.some.inj hd
      exact hne hdid.symm
    by_cases hid : id = c.id
    · simp [hid]
    · simp [hid, hother hid]
  · rw [if_neg hk, ← hr id k]
    by_cases hid : id = c.id
    · subst hid
      rw [if_pos rfl, hlisted]
      simp [Ne.symm hk]
    · rw [if_neg hid]

theorem get?_takeBack (r : Roster) (h k : Handle) :
    (r.takeBack h).get? k = if k = h then none else r.get? k := by
  unfold takeBack
  cases hc : r.get? h with
  | none =>
      by_cases hk : k = h
      · rw [if_pos hk, hk, hc]
      · rw [if_neg hk]
  | some c => exact get?_vacate r h k

theorem get?_takeBack_all (born : List Handle) (r : Roster) (k : Handle) :
    (born.foldl takeBack r).get? k = if k ∈ born then none else r.get? k := by
  induction born generalizing r with
  | nil => simp
  | cons h born ih =>
      rw [List.foldl_cons, ih, get?_takeBack]
      by_cases hk : k = h
      · simp [hk]
      · simp [hk]

theorem takeBack_all {born : List Handle} {r : Roster} (hr : Linked r) (hs : r.ids.Sorted)
    (hlive : ∀ h ∈ born, ∀ c, r.get? h = some c → c.retired = false) :
    Linked (born.foldl takeBack r) ∧ (born.foldl takeBack r).ids.Sorted ∧
      (born.foldl takeBack r).slots.length = r.slots.length := by
  induction born generalizing r with
  | nil => exact ⟨hr, hs, rfl⟩
  | cons h born ih =>
      have hstep : Linked (r.takeBack h) ∧ (r.takeBack h).ids.Sorted ∧
          (r.takeBack h).slots.length = r.slots.length := by
        unfold takeBack
        cases hc : r.get? h with
        | none => exact ⟨hr, hs, rfl⟩
        | some c =>
            exact ⟨hr.vacate hc (hlive h List.mem_cons_self c hc), Keyed.sorted_erase hs _,
              length_vacate r h⟩
      have hlive' : ∀ k ∈ born, ∀ c, (r.takeBack h).get? k = some c → c.retired = false := by
        intro k hk c hc
        rw [get?_takeBack] at hc
        split at hc
        · cases hc
        · exact hlive k (List.mem_cons_of_mem _ hk) c hc
      obtain ⟨hl, hs', hlen⟩ := ih hstep.1 hstep.2.1 hlive'
      rw [List.foldl_cons]
      exact ⟨hl, hs', hlen.trans hstep.2.2⟩

/-! ## Parts that are put as they were -/

section Amend

variable {α : Type}

/-- Change the record of a handle, if there is one. -/
def amend (r : Roster) (h : Handle) (f : Component → Component) : Roster :=
  match r.get? h with
  | some c => r.put h (f c)
  | none => r

theorem amend_spec (r : Roster) (h : Handle) (f : Component → Component) :
    (r.amend h f).ids = r.ids ∧ (r.amend h f).slots.length = r.slots.length ∧
      ∀ k, (r.amend h f).get? k = if k = h then (r.get? k).map f else r.get? k := by
  unfold amend
  cases hc : r.get? h with
  | none =>
      refine ⟨rfl, rfl, fun k => ?_⟩
      by_cases hk : k = h
      · simp [hk, hc]
      · rw [if_neg hk]
  | some c =>
      refine ⟨rfl, length_put r h _, fun k => ?_⟩
      dsimp only
      rw [get?_put (lt_of_get? hc)]
      by_cases hk : k = h
      · simp [hk, hc]
      · rw [if_neg hk, if_neg hk]

/-- A record with what was kept under its handle put back. -/
def mend (f : α → Component → Component) (kept : Keyed Handle α) (h : Handle) (c : Component) :
    Component :=
  match kept.get? h with
  | some a => f a c
  | none => c

theorem amend_all (f : α → Component → Component) {kept : Keyed Handle α} (hs : kept.Sorted)
    (r : Roster) :
    let r' := kept.foldl (fun r e => r.amend e.1 (f e.2)) r
    r'.ids = r.ids ∧ r'.slots.length = r.slots.length ∧
      ∀ k, r'.get? k = (r.get? k).map (mend f kept k) := by
  induction kept generalizing r with
  | nil =>
      refine ⟨rfl, rfl, fun k => ?_⟩
      rw [List.foldl_nil]
      cases r.get? k <;> rfl
  | cons e kept ih =>
      obtain ⟨below, rest⟩ := List.pairwise_cons.mp hs
      obtain ⟨hids, hlen, hget⟩ := amend_spec r e.1 (f e.2)
      obtain ⟨hids', hlen', hget'⟩ := ih rest (r.amend e.1 (f e.2))
      rw [List.foldl_cons]
      refine ⟨hids'.trans hids, hlen'.trans hlen, fun k => ?_⟩
      rw [hget', hget]
      by_cases hk : k = e.1
      · subst hk
        -- what was put back for this handle is not changed by the rest
        have hnone : Keyed.get? kept e.1 = none := Keyed.get?_eq_none_of_below below
        rw [if_pos rfl]
        cases r.get? e.1 with
        | none => rfl
        | some c => simp [mend, Keyed.get?, hnone]
      · rw [if_neg hk]
        cases r.get? k with
        | none => rfl
        | some c => simp [mend, Keyed.get?, Ne.symm hk]

end Amend

/-! ## What the rounds come to -/

/-- Slots that answer alike are the same. -/
theorem slots_eq {r r' : Roster} (hlen : r.slots.length = r'.slots.length)
    (hget : ∀ h, r.get? h = r'.get? h) : r.slots = r'.slots := by
  refine List.ext_getElem hlen fun h hlt hlt' => ?_
  have h₁ : r.get? h = r.slots[h] := by simp [get?, hlt]
  have h₂ : r'.get? h = r'.slots[h] := by simp [get?, hlt']
  rw [← h₁, ← h₂, hget h]

/-- Tables of ids are the same if they go with records that differ neither in their ids nor in what
is retired. -/
theorem Linked.ids_eq {r r' : Roster} (hr : Linked r) (hr' : Linked r') (hs : r.ids.Sorted)
    (hs' : r'.ids.Sorted) {f : Handle → Component → Component}
    (hf : ∀ h c, (f h c).id = c.id ∧ (f h c).retired = c.retired)
    (hget : ∀ h, (r.get? h).map (f h) = r'.get? h) : r.ids = r'.ids := by
  refine Keyed.eq_of_get?_eq hs hs' fun id => Option.ext fun h => ?_
  rw [hr id h, hr' id h, ← hget h]
  cases r.get? h with
  | none => simp
  | some c => simp [hf h c]

/-! ## What undoing leaves alone -/

/-- The handles that are gone, and the limit, are the same. -/
def SameRest (r r' : Roster) : Prop :=
  r'.retired = r.retired ∧ r'.told = r.told ∧ r'.capacity = r.capacity

theorem SameRest.foldl {α : Type} {f : Roster → α → Roster} (hf : ∀ r a, SameRest r (f r a))
    (as : List α) (r : Roster) : SameRest r (as.foldl f r) := by
  induction as generalizing r with
  | nil => exact ⟨rfl, rfl, rfl⟩
  | cons a as ih =>
      obtain ⟨hret, htold, hcap⟩ := hf r a
      obtain ⟨hret', htold', hcap'⟩ := ih (f r a)
      exact ⟨hret'.trans hret, htold'.trans htold, hcap'.trans hcap⟩

theorem sameRest_revive (born : List Handle) (r : Roster) (c : Component) :
    SameRest r (revive born r c) := by
  unfold revive
  split <;> exact ⟨rfl, rfl, rfl⟩

theorem sameRest_takeBack (r : Roster) (h : Handle) : SameRest r (r.takeBack h) := by
  unfold takeBack
  split <;> exact ⟨rfl, rfl, rfl⟩

theorem sameRest_amend (r : Roster) (h : Handle) (f : Component → Component) :
    SameRest r (r.amend h f) := by
  unfold amend
  split <;> exact ⟨rfl, rfl, rfl⟩

end ViewSync.Roster
