import ViewSync.Proofs.Roster.Calls

/-!
# What the undo record tells of a pass

Every move of a pass leaves an account of itself in the undo record: of each record from before the
pass, what it was, and of each id, where it went. This holds of rosters in any state, as long as no
handle is given out in the pass that had a record before. A component whose first render failed is
dropped and leaves its handle to spare; when the handle is given out again in the same pass, the
undo record cannot tell the old component from the new one any more.
-/

namespace ViewSync.Roster

variable {kinds : Kinds} {r₀ r : Roster} {m m' : Moment} {h : Handle} {c : Component}

/-! ## What was there before -/

/-- The record of a handle, in its slot or out of it. -/
def Moment.record? (m : Moment) (h : Handle) : Option Component :=
  match m.away with
  | some (k, c) => if k = h then some c else m.roster.get? h
  | none => m.roster.get? h

/-- What a record was before the pass. -/
def Moment.before (m : Moment) (u : Undo) (h : Handle) (c : Component) : Component :=
  rewind u (m.former.foldl (fun trees e => trees.insertNew e.1 e.2) u.trees) h c

theorem before_eq (u : Undo) :
    m.before u h c = match (u.trees.get? h).or (m.former.get? h) with
      | some t => withTree t (mend withState u.states h c)
      | none => mend withState u.states h c := by
  unfold Moment.before rewind
  rw [mend, Traced.get?_keepTrees]
  cases (u.trees.get? h).or (m.former.get? h) <;> rfl

/-- A record that is away is not in its slot. -/
def Moment.Apart (m : Moment) : Prop := ∀ h c, m.away = some (h, c) → m.roster.get? h = none

theorem Moment.Apart.record? (hm : m.Apart) (hc : m.roster.get? h = some c) :
    m.record? h = some c := by
  unfold Moment.record?
  cases haway : m.away with
  | none => exact hc
  | some away =>
      obtain ⟨k, d⟩ := away
      have hne : k ≠ h := fun heq => by
        have hnone := hm k d haway
        rw [heq, hc] at hnone
        cases hnone
      dsimp only
      rw [if_neg hne, hc]

/-- The record that is away is not that of a handle without one. -/
theorem Moment.ne_of_away {k : Handle} (haway : m.away = some (k, c)) (hnone : m.record? h = none) :
    k ≠ h := by
  intro heq
  unfold Moment.record? at hnone
  rw [haway] at hnone
  dsimp only at hnone
  rw [if_pos heq] at hnone
  cases hnone

/-- No handle is given out that had a record before the pass, or that there is no slot for. -/
def Unclaimed (r₀ : Roster) (born : List Handle) : Prop :=
  ∀ h ∈ born, r₀.get? h = none ∧ (h ∈ r₀.spare → h < r₀.slots.length)

/-- The undo record of an open pass, apart from what it tells of records and ids. -/
structure Opened (r₀ : Roster) (m : Moment) (u : Undo) : Prop where
  /-- This is the undo record. -/
  undo : m.roster.undo = some u
  /-- It has the number of slots from before. -/
  size : u.size = r₀.slots.length
  /-- No slot was taken away. -/
  grown : r₀.slots.length ≤ m.roster.slots.length
  /-- It has the handles that were to spare. -/
  spare : u.spare = r₀.spare
  /-- It has the queue from before. -/
  queue : u.queue = r₀.queue
  /-- It has what was seen before. -/
  seen : u.seen = r₀.seen
  /-- What a pass does not touch is as it was. -/
  rest : SameRest r₀ m.roster
  /-- The assigns and owners in it are in order. -/
  states_sorted : u.states.Sorted
  /-- So are the trees. -/
  trees_sorted : u.trees.Sorted

/-- What the undo record tells of records and ids. -/
structure Accounts (r₀ : Roster) (m : Moment) (u : Undo) : Prop where
  /-- The record that is away left its slot empty, and its state is noted. -/
  away : ∀ h c, m.away = some (h, c) →
    h < m.roster.slots.length ∧ m.roster.get? h = none ∧ u.states.get? h ≠ none
  /-- A handle to spare was so before the pass, or has an empty slot. -/
  spare : ∀ h ∈ m.roster.spare, (h ∈ r₀.spare ∧ h ∉ u.born) ∨
    (h < m.roster.slots.length ∧ m.record? h = none)
  /-- A record from before the pass was what the undo record makes of it. -/
  kept : ∀ h ∉ u.born, ∀ c, m.record? h = some c → r₀.get? h = some (m.before u h c)
  /-- A record that is not there any more was dropped, or never there. -/
  lost : ∀ h ∉ u.born, m.record? h = none → r₀.get? h = none ∨ ∃ d ∈ u.dropped, d.handle = h
  /-- A record that was dropped left its slot empty, and was what the undo record makes of it. -/
  dropped : ∀ d ∈ u.dropped, d.handle ∉ u.born → d.handle < m.roster.slots.length ∧
    m.record? d.handle = none ∧ r₀.get? d.handle = some (m.before u d.handle d)
  /-- An id was there before the pass, or is that of a new component. -/
  listed : ∀ id h, m.roster.handle? id = some h → r₀.handle? id = some h ∨
    (h ∈ u.born ∧ ∃ c, m.record? h = some c ∧ c.id = id)
  /-- An id from before the pass is still there, or was dropped with its component. -/
  unlisted : ∀ id h, r₀.handle? id = some h → m.roster.handle? id = some h ∨
    ∃ d ∈ u.dropped, d.id = id ∧ r₀.get? d.handle ≠ none
  /-- The id of a new component was free, or was given up by an old one in the pass. -/
  newcomer : ∀ h ∈ u.born, ∀ c, m.record? h = some c → r₀.handle? c.id = none ∨
    ∃ d ∈ u.dropped, d.id = c.id ∧ r₀.get? d.handle ≠ none

/-- The pass that is open was opened on this roster. -/
def Journaled (r₀ : Roster) (m : Moment) : Prop :=
  ∃ u, Opened r₀ m u ∧ (Unclaimed r₀ u.born → Accounts r₀ m u)

theorem journaled_openPass (r : Roster) : Journaled r ⟨none, r.openPass, []⟩ := by
  refine ⟨freshUndo r, ⟨rfl, rfl, Nat.le_refl _, rfl, rfl, rfl, ⟨rfl, rfl, rfl⟩,
    List.Pairwise.nil, List.Pairwise.nil⟩, fun _ => ?_⟩
  refine ⟨fun _ _ haway => (by cases haway), fun h hh => .inl ⟨hh, List.not_mem_nil⟩,
    fun h _ c hc => hc, fun h _ hnone => .inl hnone, fun _ hd => (by cases hd),
    fun id h hid => .inl hid, fun id h hid => .inl hid, fun _ hh => (by cases hh)⟩

namespace Accounts

variable {u u' : Undo}

/-- Records may move and change, as long as the undo record tells the same of each, and none comes
or goes. -/
theorem same (ha : Accounts r₀ m u)
    (hsome : ∀ k c', m'.record? k = some c' → ∃ c, m.record? k = some c ∧ c'.id = c.id ∧
      m'.before u' k c' = m.before u k c)
    (hnone : ∀ k, m'.record? k = none → m.record? k = none)
    (hempty : ∀ k d, m.record? k = none → m'.before u' k d = m.before u k d)
    (hids : m'.roster.ids = m.roster.ids) (hspare : m'.roster.spare = m.roster.spare)
    (hlen : m'.roster.slots.length = m.roster.slots.length) (hborn : u'.born = u.born)
    (hdropped : u'.dropped = u.dropped)
    (haway : ∀ h c, m'.away = some (h, c) →
      h < m'.roster.slots.length ∧ m'.roster.get? h = none ∧ u'.states.get? h ≠ none) :
    Accounts r₀ m' u' := by
  have hnone' (k : Handle) (hk : m.record? k = none) : m'.record? k = none := by
    refine Option.eq_none_iff_forall_ne_some.mpr fun c' hc' => ?_
    obtain ⟨c, hc, -⟩ := hsome k c' hc'
    rw [hk] at hc
    cases hc
  have hhandle (id : String) : m'.roster.handle? id = m.roster.handle? id := by
    rw [handle?, handle?, hids]
  refine ⟨haway, fun k hk => ?_, fun k hk c' hc' => ?_, fun k hk hnow => ?_, fun d hd hout => ?_,
    fun id k hid => ?_, fun id k hid => ?_, fun k hk c' hc' => ?_⟩
  · rw [hborn, hlen]
    exact (ha.spare k (hspare ▸ hk)).imp_right fun hempty => ⟨hempty.1, hnone' k hempty.2⟩
  · obtain ⟨c, hc, -, hbefore⟩ := hsome k c' hc'
    rw [hbefore]
    exact ha.kept k (hborn ▸ hk) c hc
  · rw [hdropped]
    exact ha.lost k (hborn ▸ hk) (hnone k hnow)
  · obtain ⟨hlt, hslot, hold⟩ := ha.dropped d (hdropped ▸ hd) (hborn ▸ hout)
    rw [hlen, hempty d.handle d hslot]
    exact ⟨hlt, hnone' _ hslot, hold⟩
  · rw [hborn]
    refine (ha.listed id k (hhandle id ▸ hid)).imp_right ?_
    rintro ⟨hk, c, hc, hcid⟩
    refine ⟨hk, ?_⟩
    cases hc' : m'.record? k with
    | none =>
        rw [hnone k hc'] at hc
        cases hc
    | some c' =>
        obtain ⟨d, hd, hid', -⟩ := hsome k c' hc'
        obtain rfl := Option.some.inj (hc.symm.trans hd)
        exact ⟨c', rfl, hid'.trans hcid⟩
  · rw [hhandle, hdropped]
    exact ha.unlisted id k hid
  · obtain ⟨c, hc, hid, -⟩ := hsome k c' hc'
    rw [hid, hdropped]
    exact ha.newcomer k (hborn ▸ hk) c hc

/-- One record changes or moves, and the undo record tells of it what it told before. -/
theorem rewrite {b : Component} (ha : Accounts r₀ m u) (hc : m.record? h = some c)
    (hid : b.id = c.id) (hself : m'.before u' h b = m.before u h c)
    (hrecord : ∀ k, m'.record? k = if k = h then some b else m.record? k)
    (hbefore : ∀ k d, k ≠ h → m'.before u' k d = m.before u k d)
    (hids : m'.roster.ids = m.roster.ids) (hspare : m'.roster.spare = m.roster.spare)
    (hlen : m'.roster.slots.length = m.roster.slots.length) (hborn : u'.born = u.born)
    (hdropped : u'.dropped = u.dropped)
    (haway : ∀ h c, m'.away = some (h, c) →
      h < m'.roster.slots.length ∧ m'.roster.get? h = none ∧ u'.states.get? h ≠ none) :
    Accounts r₀ m' u' := by
  have hne (k : Handle) (hk : m.record? k = none) : k ≠ h := fun heq => by
    rw [heq, hc] at hk
    cases hk
  refine ha.same (fun k d hd => ?_) (fun k hk => ?_) (fun k d hk => hbefore k d (hne k hk)) hids
    hspare hlen hborn hdropped haway
  · rw [hrecord] at hd
    split at hd
    · next hk =>
        obtain rfl := Option.some.inj hd
        exact ⟨c, hk ▸ hc, hid, hk ▸ hself⟩
    · next hk => exact ⟨d, hd, rfl, hbefore k d hk⟩
  · rw [hrecord] at hk
    split at hk
    · cases hk
    · exact hk

/-! ## New records -/

/-- A handle that may be given out has a slot, and no record. -/
theorem fresh (ha : Accounts r₀ m u) (hgrown : r₀.slots.length ≤ m.roster.slots.length)
    (hun : Unclaimed r₀ (u.born ++ [m.roster.takeHandle.1])) :
    m.roster.takeHandle.1 < m.roster.takeHandle.2.slots.length ∧
      m.record? m.roster.takeHandle.1 = none := by
  obtain ⟨hold, hroom⟩ := hun m.roster.takeHandle.1 (by simp)
  rcases takeHandle_cases m.roster with ⟨rest, hspare, hroster⟩ | ⟨-, hhead, hroster⟩
  · rw [hroster]
    rcases ha.spare _ (hspare ▸ List.mem_cons_self) with ⟨hwas, hout⟩ | hempty
    · refine ⟨Nat.lt_of_lt_of_le (hroom hwas) hgrown, Option.eq_none_iff_forall_ne_some.mpr ?_⟩
      intro c hc
      have hkept := ha.kept _ hout c hc
      rw [hold] at hkept
      cases hkept
    · exact hempty
  · refine ⟨by rw [hroster, hhead]; simp, ?_⟩
    have hbeyond : m.roster.get? m.roster.takeHandle.1 = none := by simp [get?, hhead]
    unfold Moment.record?
    cases haway : m.away with
    | none => exact hbeyond
    | some away =>
        obtain ⟨k, d⟩ := away
        have hlt := (ha.away k d haway).1
        dsimp only
        rw [if_neg (by rw [hhead]; exact Nat.ne_of_lt hlt), hbeyond]

/-- A new record is added to those that there are, in their slots or out of them. -/
theorem record?_create (hlt : m.roster.takeHandle.1 < m.roster.takeHandle.2.slots.length)
    (hempty : m.record? m.roster.takeHandle.1 = none) (id : String) (kind : KindRef)
    (assigns : Assigns) (owner : Option StreamEntry) (k : Handle) :
    ({ m with roster := m.roster.create id kind assigns owner } : Moment).record? k =
      if k = m.roster.takeHandle.1
        then some { id, handle := m.roster.takeHandle.1, kind, assigns, owner }
        else m.record? k := by
  have hget := get?_create_of_lt hlt id kind assigns owner
  unfold Moment.record?
  cases haway : m.away with
  | none => exact hget k
  | some away =>
      obtain ⟨j, d⟩ := away
      dsimp only
      by_cases hj : j = k
      · rw [if_pos hj, if_neg (hj ▸ Moment.ne_of_away haway hempty), if_pos hj]
      · rw [if_neg hj, if_neg hj, hget k]

/-- A component is made, under a handle that had no record before the pass. -/
theorem create (ha : Accounts r₀ m u) (hp : Proper m)
    (hgrown : r₀.slots.length ≤ m.roster.slots.length)
    (hun : Unclaimed r₀ (u.born ++ [m.roster.takeHandle.1])) {id : String} (kind : KindRef)
    (assigns : Assigns) (owner : Option StreamEntry) (hid : m.roster.handle? id = none) :
    Accounts r₀ { m with roster := m.roster.create id kind assigns owner }
      (Traced.bearing u m.roster.takeHandle.1) := by
  obtain ⟨hlt, hempty⟩ := ha.fresh hgrown hun
  have hget := get?_create_of_lt hlt id kind assigns owner
  have hlen := length_le_create m.roster id kind assigns owner
  have hrecord := record?_create hlt hempty id kind assigns owner
  have hids := handle?_create m.roster id kind assigns owner
  have hold {k : Handle} {c : Component} (hc : m.record? k = some c) :
      ({ m with roster := m.roster.create id kind assigns owner } : Moment).record? k = some c := by
    have hne : k ≠ m.roster.takeHandle.1 := fun heq => by
      rw [heq, hempty] at hc
      cases hc
    rw [hrecord, if_neg hne, hc]
  have hnew : r₀.handle? id = none ∨ ∃ d ∈ u.dropped, d.id = id ∧ r₀.get? d.handle ≠ none := by
    cases hwas : r₀.handle? id with
    | none => exact .inl rfl
    | some k =>
        rcases ha.unlisted id k hwas with hnow | hdropped
        · rw [hid] at hnow
          cases hnow
        · exact .inr hdropped
  have hout {k : Handle} (hk : k ∉ u.born ++ [m.roster.takeHandle.1]) :
      k ∉ u.born ∧ k ≠ m.roster.takeHandle.1 := by
    simpa [not_or] using hk
  refine ⟨fun k c haway => ?_, fun k hk => ?_, fun k hk c hc => ?_, fun k hk hnone => ?_,
    fun d hd hk => ?_, fun id' k hk => ?_, fun id' k hk => ?_, fun k hk c hc => ?_⟩
  · obtain ⟨hk, hempty', hstates⟩ := ha.away k c haway
    refine ⟨Nat.lt_of_lt_of_le hk hlen, ?_, hstates⟩
    exact (hget k).trans ((if_neg (Moment.ne_of_away (m := m) haway hempty)).trans hempty')
  · have hk : k ∈ m.roster.spare.tail := by
      rw [create_rest] at hk
      exact hk
    have hne : k ≠ m.roster.takeHandle.1 := fun heq =>
      takeHandle_not_mem_tail hp.spare_sorted (heq ▸ hk)
    rcases ha.spare k (List.mem_of_mem_tail hk) with ⟨hwas, hborn⟩ | ⟨hk, hnone⟩
    · exact .inl ⟨hwas, by simp [Traced.bearing, hborn, hne]⟩
    · refine .inr ⟨Nat.lt_of_lt_of_le hk hlen, ?_⟩
      rw [hrecord, if_neg hne, hnone]
  · obtain ⟨hborn, hne⟩ := hout hk
    rw [hrecord, if_neg hne] at hc
    exact ha.kept k hborn c hc
  · obtain ⟨hborn, hne⟩ := hout hk
    rw [hrecord, if_neg hne] at hnone
    exact ha.lost k hborn hnone
  · obtain ⟨hborn, hne⟩ := hout hk
    obtain ⟨hlt', hnone, hwas⟩ := ha.dropped d hd hborn
    refine ⟨Nat.lt_of_lt_of_le hlt' hlen, ?_, hwas⟩
    rw [hrecord, if_neg hne, hnone]
  · rw [hids] at hk
    split at hk
    · next heq =>
        obtain rfl := Option.some.inj hk
        refine .inr ⟨by simp [Traced.bearing], _, (hrecord _).trans (if_pos rfl), heq.symm⟩
    · refine (ha.listed id' k hk).imp_right ?_
      rintro ⟨hborn, c, hc, hcid⟩
      exact ⟨List.mem_append_left _ hborn, c, hold hc, hcid⟩
  · rw [hids]
    split
    · next heq =>
        rw [heq] at hk
        rcases hnew with hnone | hdropped
        · rw [hnone] at hk
          cases hk
        · exact .inr (heq ▸ hdropped)
    · exact ha.unlisted id' k hk
  · rw [hrecord] at hc
    split at hc
    · obtain rfl := Option.some.inj hc
      exact hnew
    · next hne =>
        rcases List.mem_append.mp hk with hk | hk
        · exact ha.newcomer k hk c hc
        · exact absurd (List.mem_singleton.mp hk) hne

/-! ## Records that are dropped -/

theorem drop {former : FormerTrees} (ha : Accounts r₀ ⟨none, r, former⟩ u)
    (hp : Proper ⟨none, r, former⟩) (hc : r.get? h = some c) :
    Accounts r₀ ⟨none, r.drop h, former⟩ { u with dropped := u.dropped ++ [c] } := by
  have hh : c.handle = h := hp.handle_eq h c hc
  have hrecord (k : Handle) : (⟨none, r.drop h, former⟩ : Moment).record? k =
      if k = h then none else (⟨none, r, former⟩ : Moment).record? k := get?_drop hc k
  have hlen : (r.drop h).slots.length = r.slots.length := by
    rw [drop_of_get? hc]
    exact length_vacate r h
  have hids (id : String) : (r.drop h).handle? id = if id = c.id then none else r.handle? id := by
    rw [drop_of_get? hc]
    exact Keyed.get?_erase _ _ _
  have hspare : (r.drop h).spare = r.spare.insert h := by rw [drop_of_get? hc]
  have hold {k : Handle} {P : Prop} (hk : P ∧ (⟨none, r, former⟩ : Moment).record? k = none) :
      P ∧ (⟨none, r.drop h, former⟩ : Moment).record? k = none := by
    refine ⟨hk.1, ?_⟩
    rw [hrecord, hk.2, ite_self]
  have hstay {id : String} (hd : ∃ d ∈ u.dropped, d.id = id ∧ r₀.get? d.handle ≠ none) :
      ∃ d ∈ u.dropped ++ [c], d.id = id ∧ r₀.get? d.handle ≠ none := by
    obtain ⟨d, hd, hrest⟩ := hd
    exact ⟨d, List.mem_append_left _ hd, hrest⟩
  have hother {k : Handle} {d : Component}
      (hd : (⟨none, r.drop h, former⟩ : Moment).record? k = some d) :
      k ≠ h ∧ (⟨none, r, former⟩ : Moment).record? k = some d := by
    rw [hrecord] at hd
    split at hd
    · cases hd
    · next hne => exact ⟨hne, hd⟩
  refine ⟨fun k d haway => (by cases haway), fun k hk => ?_, fun k hk d hd => ?_,
    fun k hk hnone => ?_, fun d hd hk => ?_, fun id k hk => ?_, fun id k hk => ?_,
    fun k hk d hd => ?_⟩
  · have hk : k ∈ r.spare.insert h := hspare ▸ hk
    change _ ∨ k < (r.drop h).slots.length ∧ _
    rw [hlen]
    rcases KeySet.mem_insert.mp hk with rfl | hk
    · exact .inr ⟨lt_of_get? hc, (hrecord k).trans (if_pos rfl)⟩
    · exact (ha.spare k hk).imp_right hold
  · exact ha.kept k hk d (hother hd).2
  · by_cases hkh : k = h
    · exact .inr ⟨c, by simp, hh.trans hkh.symm⟩
    · rw [hrecord, if_neg hkh] at hnone
      refine (ha.lost k hk hnone).imp_right fun ⟨d, hd, hdk⟩ => ?_
      exact ⟨d, List.mem_append_left _ hd, hdk⟩
  · change d.handle < (r.drop h).slots.length ∧ _
    rw [hlen]
    rcases List.mem_append.mp hd with hd | hd
    · obtain ⟨hlt, hrest⟩ := ha.dropped d hd hk
      exact ⟨hlt, (hold ⟨hlt, hrest.1⟩).2, hrest.2⟩
    · obtain rfl := List.mem_singleton.mp hd
      rw [hh] at hk ⊢
      exact ⟨lt_of_get? hc, (hrecord h).trans (if_pos rfl), ha.kept h hk d hc⟩
  · have hk : (r.drop h).handle? id = some k := hk
    rw [hids] at hk
    split at hk
    · cases hk
    · next hne =>
        refine (ha.listed id k hk).imp_right fun ⟨hborn, d, hd, hid⟩ => ⟨hborn, d, ?_, hid⟩
        have hkh : k ≠ h := by
          rintro rfl
          obtain rfl := Option.some.inj (hd.symm.trans hc)
          exact hne hid.symm
        rw [hrecord, if_neg hkh, hd]
  · change (r.drop h).handle? id = some k ∨ _
    rw [hids]
    split
    · next heq =>
        -- the id is given up, by a record from before or by one that took it up in the pass
        refine .inr ?_
        by_cases hwas : r₀.get? h = none
        · have hborn : h ∈ u.born := Decidable.not_not.mp fun hout => by
            have hkept := ha.kept h hout c hc
            rw [hwas] at hkept
            cases hkept
          rcases ha.newcomer h hborn c hc with hnone | hd
          · rw [← heq, hk] at hnone
            cases hnone
          · exact hstay (heq ▸ hd)
        · exact ⟨c, by simp, heq.symm, hh ▸ hwas⟩
    · exact (ha.unlisted id k hk).imp_right hstay
  · exact (ha.newcomer k hk d (hother hd).2).imp_right hstay

end Accounts

/-! ## Every move leaves an account -/

/-- What is kept now of a record is what it is, unless something was kept before. -/
theorem mend_keeping_self (u : Undo) (c : Component) (assigns : Assigns)
    (owner : Option StreamEntry) :
    mend withState (Traced.keeping u c).states c.handle { c with assigns, owner } =
      mend withState u.states c.handle c := by
  unfold mend Traced.keeping
  dsimp only
  rw [Keyed.get?_insertNew, if_pos rfl]
  cases u.states.get? c.handle <;> rfl

theorem mend_keeping_of_ne {u : Undo} {k : Handle} (hk : k ≠ c.handle) (d : Component) :
    mend withState (Traced.keeping u c).states k d = mend withState u.states k d := by
  unfold mend Traced.keeping
  dsimp only
  rw [Keyed.get?_insertNew, if_neg hk]

namespace Accounts

variable {u : Undo} {former : FormerTrees}

theorem apart (ha : Accounts r₀ m u) : m.Apart := fun h c haway => (ha.away h c haway).2.1

theorem handOver (ha : Accounts r₀ m u) (hp : Proper m) (hc : m.roster.get? h = some c)
    (kinds : Kinds) (props : Fields) (owner : Option StreamEntry) :
    Accounts r₀ { m with roster := m.roster.handOver kinds h c props owner }
      (Traced.keeping u c) := by
  have hh : c.handle = h := hp.handle_eq h c hc
  have hlt := lt_of_get? hc
  have hget := get?_put (r := m.roster.keepState c) hlt { c with
    assigns := ((kinds c.kind.key).update props c.assigns).1, owner := owner <|> c.owner }
  have hne {k : Handle} {d : Component} (haway : m.away = some (k, d)) : k ≠ h := by
    rintro rfl
    have hempty := ha.apart k d haway
    rw [hc] at hempty
    cases hempty
  refine ha.rewrite (ha.apart.record? hc) (b := { c with
    assigns := ((kinds c.kind.key).update props c.assigns).1, owner := owner <|> c.owner })
    rfl ?_ (fun k => ?_) (fun k d hk => ?_) rfl rfl (length_put _ h _) rfl rfl fun k d haway => ?_
  · rw [before_eq, before_eq, ← hh, mend_keeping_self]
    rfl
  · unfold Moment.record?
    cases haway : m.away with
    | none => exact hget k
    | some away =>
        obtain ⟨j, d⟩ := away
        dsimp only
        by_cases hj : j = k
        · rw [if_pos hj, if_neg (hj ▸ hne haway), if_pos hj]
        · rw [if_neg hj, if_neg hj]
          exact hget k
  · rw [before_eq, before_eq, mend_keeping_of_ne (hh.symm ▸ hk)]
    rfl
  · obtain ⟨hk, hempty, hstates⟩ := ha.away k d haway
    refine ⟨Nat.lt_of_lt_of_eq hk (length_put _ h _).symm, ?_, ?_⟩
    · exact (hget k).trans ((if_neg (hne haway)).trans hempty)
    · unfold Traced.keeping
      dsimp only
      rw [Keyed.get?_insertNew]
      split
      · exact Option.some_ne_none _
      · exact hstates

theorem lift (ha : Accounts r₀ ⟨none, r, former⟩ u) (hp : Proper ⟨none, r, former⟩)
    (hc : r.get? h = some c) :
    Accounts r₀ ⟨some (h, c), (r.keepState c).vacate h, former⟩ (Traced.keeping u c) := by
  have hh : c.handle = h := hp.handle_eq h c hc
  have hget := get?_vacate (r.keepState c) h
  refine ha.rewrite (h := h) (c := c) (b := c) hc rfl ?_ (fun k => ?_) (fun k d hk => ?_) rfl rfl
    (length_vacate _ h) rfl rfl ?_
  · have hkept : mend withState (Traced.keeping u c).states c.handle c =
        mend withState u.states c.handle c := mend_keeping_self u c c.assigns c.owner
    rw [before_eq, before_eq, ← hh, hkept]
    rfl
  · unfold Moment.record?
    dsimp only
    by_cases hk : k = h
    · rw [if_pos hk.symm, if_pos hk]
    · rw [if_neg (Ne.symm hk), if_neg hk, hget, if_neg hk]
      rfl
  · rw [before_eq, before_eq, mend_keeping_of_ne (hh.symm ▸ hk)]
    rfl
  · rintro k d ⟨⟩
    refine ⟨Nat.lt_of_lt_of_eq (lt_of_get? hc) (length_vacate _ h).symm, ?_,
      Traced.states_keeping u hh⟩
    rw [hget, if_pos rfl]

/-- A record goes back to its slot, perhaps with another tree and other assigns. -/
theorem putBack {former' : FormerTrees} {c' : Component}
    (ha : Accounts r₀ ⟨some (h, c), r, former⟩ u) (hid : c'.id = c.id)
    (hself : (⟨none, r.put h c', former'⟩ : Moment).before u h c' =
      (⟨some (h, c), r, former⟩ : Moment).before u h c)
    (hformer : ∀ k, k ≠ h → former'.get? k = former.get? k) :
    Accounts r₀ ⟨none, r.put h c', former'⟩ u := by
  obtain ⟨hlt, -, -⟩ := ha.away h c rfl
  refine ha.rewrite (h := h) (c := c) (b := c') (if_pos rfl) hid hself (fun k => ?_)
    (fun k d hk => ?_) rfl rfl (length_put r h _) rfl rfl (fun _ _ haway => by cases haway)
  · refine (get?_put hlt c' k).trans ?_
    unfold Moment.record?
    dsimp only
    by_cases hk : k = h
    · rw [if_pos hk, if_pos hk]
    · rw [if_neg hk, if_neg hk, if_neg (Ne.symm hk)]
  · rw [before_eq, before_eq, hformer k hk]

theorem redraw (ha : Accounts r₀ ⟨some (h, c), r, former⟩ u) (tree : Tree) :
    Accounts r₀ ⟨none, r.put h { c with tree := some tree, assigns := c.assigns.settled },
      former.insertNew h c.tree⟩ u := by
  obtain ⟨-, -, hstates⟩ := ha.away h c rfl
  refine ha.putBack rfl ?_ fun k hk => ?_
  · -- the state was kept when the rendering started, and the tree has just been noted
    obtain ⟨state, hstate⟩ := Option.ne_none_iff_exists'.mp hstates
    rw [before_eq, before_eq]
    simp only [Keyed.get?_insertNew, if_true, mend, hstate]
    cases u.trees.get? h with
    | some t => rfl
    | none => cases former.get? h <;> rfl
  · rw [Keyed.get?_insertNew, if_neg hk]

theorem blank (ha : Accounts r₀ ⟨none, r, former⟩ u) (hc : r.get? h = some c)
    (hnoted : former.get? h ≠ none) (tree : Tree) :
    Accounts r₀ ⟨none, r.put h { c with tree := some tree }, former⟩ u := by
  obtain ⟨t, ht⟩ := Option.ne_none_iff_exists'.mp hnoted
  refine ha.rewrite (h := h) (c := c) (b := { c with tree := some tree }) hc rfl ?_
    (fun k => get?_put (lt_of_get? hc) _ k) (fun k d _ => ?_) rfl rfl (length_put r h _) rfl rfl
    (fun _ _ haway => by cases haway)
  · rw [before_eq, before_eq]
    simp only [ht, mend]
    cases u.trees.get? h <;> cases u.states.get? h <;> rfl
  · rw [before_eq, before_eq]

end Accounts

/-- **Every move leaves an account.** -/
theorem Journaled.move (hj : Journaled r₀ m) (hp : Proper m) (hm : Move kinds m m') :
    Journaled r₀ m' := by
  obtain ⟨u, ho, ha⟩ := hj
  have hundo (f : Undo → Undo) : m.roster.undo.map f = some (f u) := by rw [ho.undo]; rfl
  cases hm with
  | marks seen drawn stillborn queue =>
      refine ⟨u, ⟨ho.undo, ho.size, ho.grown, ho.spare, ho.queue, ho.seen, ho.rest,
        ho.states_sorted, ho.trees_sorted⟩, fun hun => ?_⟩
      exact (ha hun).same (fun k d hd => ⟨d, hd, rfl, rfl⟩) (fun _ hk => hk) (fun _ _ _ => rfl)
        rfl rfl rfl rfl rfl (ha hun).away
  | @handOver m h c props owner hc =>
      refine ⟨Traced.keeping u c, ⟨hundo _, ho.size, ?_, ho.spare, ho.queue, ho.seen, ho.rest,
        Keyed.sorted_insertNew ho.states_sorted _ _, ho.trees_sorted⟩, fun hun => ?_⟩
      · exact Nat.le_trans ho.grown (Nat.le_of_eq (length_put _ h _).symm)
      · exact (ha hun).handOver hp hc kinds props owner
  | @create m id kind assigns owner hid =>
      refine ⟨Traced.bearing u m.roster.takeHandle.1, ⟨?_, ho.size, ?_, ho.spare, ho.queue,
        ho.seen, ?_, ho.states_sorted, ho.trees_sorted⟩, fun hun => ?_⟩
      · rw [create_rest]
        exact hundo _
      · exact Nat.le_trans ho.grown (length_le_create m.roster id kind assigns owner)
      · rw [create_rest]
        exact ho.rest
      · have hbefore : Unclaimed r₀ u.born := fun h hh => hun h (List.mem_append_left _ hh)
        exact (ha hbefore).create hp ho.grown hun kind assigns owner hid
  | @lift r former h c hc =>
      refine ⟨Traced.keeping u c, ⟨hundo _, ho.size, ?_, ho.spare, ho.queue, ho.seen, ho.rest,
        Keyed.sorted_insertNew ho.states_sorted _ _, ho.trees_sorted⟩,
        fun hun => (ha hun).lift hp hc⟩
      exact Nat.le_trans ho.grown (Nat.le_of_eq (length_vacate _ h).symm)
  | @putBack r former h c =>
      refine ⟨u, ⟨ho.undo, ho.size, ?_, ho.spare, ho.queue, ho.seen, ho.rest, ho.states_sorted,
        ho.trees_sorted⟩, fun hun => (ha hun).putBack rfl rfl fun _ _ => rfl⟩
      exact Nat.le_trans ho.grown (Nat.le_of_eq (length_put r h c).symm)
  | @redraw r former h c tree =>
      refine ⟨u, ⟨ho.undo, ho.size, ?_, ho.spare, ho.queue, ho.seen, ho.rest, ho.states_sorted,
        ho.trees_sorted⟩, fun hun => (ha hun).redraw tree⟩
      exact Nat.le_trans ho.grown (Nat.le_of_eq (length_put r h _).symm)
  | @drop r former h c hc =>
      have hdrop := drop_of_get? hc
      refine ⟨{ u with dropped := u.dropped ++ [c] }, ⟨?_, ho.size, ?_, ho.spare, ho.queue,
        ho.seen, ?_, ho.states_sorted, ho.trees_sorted⟩, fun hun => (ha hun).drop hp hc⟩
      · rw [hdrop]
        exact hundo _
      · rw [hdrop]
        exact Nat.le_trans ho.grown (Nat.le_of_eq (length_vacate r h).symm)
      · rw [hdrop]
        exact ho.rest
  | @blank r former h c tree hc hnoted =>
      refine ⟨u, ⟨ho.undo, ho.size, ?_, ho.spare, ho.queue, ho.seen, ho.rest, ho.states_sorted,
        ho.trees_sorted⟩, fun hun => (ha hun).blank hc hnoted tree⟩
      exact Nat.le_trans ho.grown (Nat.le_of_eq (length_put r h _).symm)
  | @file r former =>
      refine ⟨{ u with trees := former.foldl (fun trees e => trees.insertNew e.1 e.2) u.trees },
        ⟨hundo _, ho.size, ho.grown, ho.spare, ho.queue, ho.seen, ho.rest, ho.states_sorted,
        Traced.sorted_keepTrees former ho.trees_sorted⟩, fun hun => ?_⟩
      exact (ha hun).same (fun k d hd => ⟨d, hd, rfl, rfl⟩) (fun _ hk => hk) (fun _ _ _ => rfl)
        rfl rfl rfl rfl rfl (ha hun).away

/-- **Any number of moves leaves an account.** -/
theorem Journaled.moves (hj : Journaled r₀ m) (hp : Proper m) (hm : Moves kinds m m') :
    Journaled r₀ m' := by
  induction hm with
  | refl => exact hj
  | tail hms hm ih => exact ih.move (hp.moves hms) hm

end ViewSync.Roster
