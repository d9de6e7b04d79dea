import ViewSync.Proofs.Roster.Smooth

/-!
# What an answered reference does

A reference that is answered changes one record at most, that of the component which it names, and
leaves it queued if it has to be rendered. This is so for every kind of component, and also while
the record of another component is away because that is being rendered.
-/

namespace ViewSync.Roster

/-- A roster that references may be made to, while a record is away or not. -/
structure Ready (r : Roster) : Prop where
  /-- The handles to spare are in order. -/
  spare_sorted : KeySet.Sorted r.spare
  /-- They have no records. -/
  spare_empty : r.SpareEmpty
  /-- Nothing is stillborn. -/
  stillborn : r.stillborn = []
  /-- The handle of an id has a slot and is not to spare. -/
  bound : ∀ id h, r.handle? id = some h → h < r.slots.length ∧ h ∉ r.spare
  /-- The record of an id has that id, and is live. -/
  record : ∀ id h c, r.handle? id = some h → r.get? h = some c → c.id = id ∧ c.retired = false

theorem Arena.ready {r : Roster} (hr : r.Arena) (hborn : r.stillborn = []) : r.Ready where
  spare_sorted := hr.spare_sorted
  spare_empty := hr.spare_empty
  stillborn := hborn
  bound id h hid := by
    obtain ⟨c, hc, -⟩ := (hr.ids_iff id h).mp hid
    exact ⟨lt_of_get? hc, hr.not_spare hc⟩
  record id h c hid hc := by
    obtain ⟨d, hd, hname, hlive⟩ := (hr.ids_iff id h).mp hid
    obtain rfl := Option.some.inj (hc.symm.trans hd)
    exact ⟨hname, hlive⟩

variable {kinds : Kinds} {r : Roster}

theorem get?_handOver (kinds : Kinds) {h : Handle} {c : Component} (hc : r.get? h = some c)
    (props : Fields) (owner : Option StreamEntry) (k : Handle) :
    (r.handOver kinds h c props owner).get? k =
      if k = h then some { c with
        assigns := ((kinds c.kind.key).update props c.assigns).1, owner := owner <|> c.owner }
      else r.get? k :=
  get?_put (r := r.keepState c) (lt_of_get? hc) _ k

/-- Rendering a stream entry is noted, and nothing else. -/
theorem noteDrawn_eq (r : Roster) (e : StreamEntry) :
    ∃ drawn, r.noteDrawn e = { r with drawn } ∧ ∀ x, x ∈ drawn ↔ x = e ∨ x ∈ r.drawn := by
  unfold noteDrawn
  split
  · next hin => exact ⟨r.drawn, rfl, fun x => by simpa using fun heq => heq ▸ hin⟩
  · exact ⟨e :: r.drawn, rfl, fun x => List.mem_cons⟩

namespace Ready

variable {r' : Roster}

/-- Marks do not matter. -/
theorem congr (hr : r.Ready) (hslots : r'.slots = r.slots) (hids : r'.ids = r.ids)
    (hspare : r'.spare = r.spare) (hborn : r'.stillborn = r.stillborn) : r'.Ready := by
  have hget (h : Handle) : r'.get? h = r.get? h := by rw [get?, get?, hslots]
  refine ⟨?_, fun h hh => ?_, hborn.trans hr.stillborn, fun id h hid => ?_, fun id h c hid hc => ?_⟩
  · rw [hspare]
    exact hr.spare_sorted
  · rw [hslots]
    exact hr.spare_empty h (hspare ▸ hh)
  · rw [handle?, hids] at hid
    rw [hslots, hspare]
    exact hr.bound id h hid
  · rw [handle?, hids] at hid
    exact hr.record id h c hid (hget h ▸ hc)

/-- A record may be taken away. -/
theorem vacate (hr : r.Ready) (h : Handle) : (r.vacate h).Ready where
  spare_sorted := hr.spare_sorted
  spare_empty k hk := by
    have hempty := hr.spare_empty k hk
    by_cases heq : h = k
    · subst heq
      exact List.getElem?_set_self (List.getElem?_eq_some_iff.mp hempty).1
    · exact (List.getElem?_set_ne heq).trans hempty
  stillborn := hr.stillborn
  bound id k hid := by
    rw [length_vacate]
    exact hr.bound id k hid
  record id k c hid hc := by
    rw [get?_vacate] at hc
    split at hc
    · cases hc
    · exact hr.record id k c hid hc

/-- A record may be handed props. -/
theorem handOver {h : Handle} {c : Component} (hr : r.Ready)
    (hc : r.get? h = some c) (props : Fields) (owner : Option StreamEntry) :
    (r.handOver kinds h c props owner).Ready where
  spare_sorted := hr.spare_sorted
  spare_empty := hr.spare_empty.put hc _
  stillborn := hr.stillborn
  bound id k hid := by
    change k < (r.slots.set h _).length ∧ _
    rw [List.length_set]
    exact hr.bound id k hid
  record id k d hid hd := by
    rw [get?_handOver kinds hc] at hd
    split at hd
    · next heq =>
        obtain rfl := Option.some.inj hd
        exact hr.record id h c (heq ▸ hid) hc
    · exact hr.record id k d hid hd

/-- There may be a new record. -/
theorem create (hr : r.Ready) (id : String) (kind : KindRef) (assigns : Assigns)
    (owner : Option StreamEntry) : (r.create id kind assigns owner).Ready := by
  have hget := get?_create hr.spare_empty id kind assigns owner
  have hids := handle?_create r id kind assigns owner
  refine ⟨?_, hr.spare_empty.create hr.spare_sorted id kind assigns owner, ?_,
    bound_create hr.spare_empty hr.spare_sorted hr.bound id kind assigns owner,
    fun i k c hi hc => ?_⟩
  · rw [create_rest]
    exact hr.spare_sorted.sublist (List.tail_sublist _)
  · rw [create_rest]
    exact hr.stillborn
  · rw [hids] at hi
    rw [hget] at hc
    split at hi
    · next heq =>
        rw [if_pos (Option.some.inj hi).symm] at hc
        obtain rfl := Option.some.inj hc
        exact ⟨heq.symm, rfl⟩
    · obtain ⟨hlt, hout⟩ := hr.bound i k hi
      rw [if_neg (ne_takeHandle hout hlt)] at hc
      exact hr.record i k c hi hc

/-- A roster stays ready whatever comes of a reference. -/
theorem refer (hr : r.Ready) (kinds : Kinds) (id : String) (kind : KindRef) (props : Fields)
    (owner : Option StreamEntry) : (r.refer kinds id kind props owner).2.Ready := by
  have hspec := refer_spec kinds r id kind props owner
  generalize (r.refer kinds id kind props owner).1 = x at hspec
  generalize (r.refer kinds id kind props owner).2 = r' at hspec ⊢
  cases hspec with
  | refused e => exact hr
  | stillborn => exact hr
  | inside => exact hr.congr rfl rfl rfl rfl
  | failed _ _ hc _ => exact hr.handOver hc props owner
  | @stale h c _ _ hc _ =>
      obtain ⟨queue, hq, -⟩ := schedule_eq ((r.handOver kinds h c props owner).see h) h
      rw [hq]
      exact (hr.handOver hc props owner).congr rfl rfl rfl rfl
  | unchanged _ _ hc _ => exact (hr.handOver hc props owner).congr rfl rfl rfl rfl
  | @created a b _ _ _ =>
      obtain ⟨queue, hq, -⟩ := schedule_eq ((r.create id kind b owner).see r.takeHandle.1)
        r.takeHandle.1
      rw [hq]
      exact (hr.create id kind b owner).congr rfl rfl rfl rfl

theorem noteDrawn (hr : r.Ready) (e : StreamEntry) : (r.noteDrawn e).Ready := by
  obtain ⟨drawn, hdrawn, -⟩ := noteDrawn_eq r e
  rw [hdrawn]
  exact hr.congr rfl rfl rfl rfl

end Ready

/-- What a reference to an id has done that was answered with a handle. -/
structure Replied (r : Roster) (id : String) (owner : Option StreamEntry) (h : Handle)
    (r' : Roster) : Prop where
  /-- The id stood for the component before, or for none. -/
  known : r.handle? id = some h ∨ r.handle? id = none ∧ r.get? h = none
  /-- The id now has the handle of the answer, and other ids have theirs. -/
  ids : ∀ i, r'.handle? i = if i = id then some h else r.handle? i
  /-- Other records are as they were. -/
  others : ∀ k, k ≠ h → r'.get? k = r.get? k
  /-- Other components are queued if they were. -/
  queue : ∀ k, k ≠ h → (k ∈ r'.queue ↔ k ∈ r.queue)
  /-- The component is queued if it has to be rendered. -/
  fresh : ∀ c, r'.get? h = some c → c.isStale = true → h ∈ r'.queue
  /-- It counts as one in the stream entry, if there is one around the reference. -/
  owner : ∀ c, r'.get? h = some c → c.owner = (owner <|> (r.get? h).bind Component.owner)
  /-- A record that is away stays away. -/
  away : r.handle? id = some h → r.get? h = none → r'.get? h = none
  /-- No entry was drawn. -/
  drawn : r'.drawn = r.drawn

/-- A component that a reference leaves alone does not have to be rendered. -/
theorem not_isStale_of_refer {r' : Roster} {id : String} {kind : KindRef} {props : Fields}
    {owner : Option StreamEntry} {h : Handle} {c : Component} (hborn : r.stillborn = [])
    (hok : r.refer kinds id kind props owner = (.ok (h, false), r')) (hc : r'.get? h = some c) :
    c.isStale = false := by
  have hnew : (r.referNew kinds id kind props owner) ≠ (.ok (h, false), r') := by
    unfold referNew
    split
    · nofun
    · split <;> nofun
  unfold refer at hok
  split at hok
  · rw [hborn, if_neg List.not_mem_nil] at hok
    split at hok
    · next hnone =>
        obtain ⟨hh, rfl⟩ := Prod.mk.inj hok
        obtain ⟨rfl, -⟩ := Prod.mk.inj (Except.ok.inj hh)
        cases hnone.symm.trans hc
    · next d hd =>
        split at hok
        · cases hok
        · unfold referLive at hok
          dsimp only at hok
          split at hok
          · cases hok
          · split at hok
            · cases hok
            · next hcalm =>
                obtain ⟨hh, rfl⟩ := Prod.mk.inj hok
                obtain ⟨rfl, -⟩ := Prod.mk.inj (Except.ok.inj hh)
                have hput := get?_put (r := r.keepState d) (lt_of_get? hd)
                obtain rfl := Option.some.inj (((hput _ _).trans (if_pos rfl)).symm.trans hc)
                exact Bool.eq_false_iff.mpr hcalm
  · split at hok
    · split at hok
      · cases hok
      · exact absurd hok hnew
    · exact absurd hok hnew

theorem get?_schedule (r : Roster) (h k : Handle) : (r.schedule h).get? k = r.get? k := by
  obtain ⟨queue, hq, -⟩ := schedule_eq r h
  rw [hq]
  rfl

theorem mem_queue_schedule_of_ne {h k : Handle} (hk : k ≠ h) :
    k ∈ (r.schedule h).queue ↔ k ∈ r.queue := by
  obtain ⟨queue, hq, -, hmono⟩ := schedule_eq r h
  refine ⟨fun hin => (mem_queue_schedule hin).resolve_right hk, fun hin => ?_⟩
  rw [hq]
  exact hmono k hin

/-- **What a reference that is answered has done.** -/
theorem replied_refer {id : String} {kind : KindRef} {props : Fields} {owner : Option StreamEntry}
    {h : Handle} {changed : Bool} {r' : Roster} (hr : r.Ready)
    (hok : r.refer kinds id kind props owner = (.ok (h, changed), r')) :
    Replied r id owner h r' := by
  have hcalm : changed = false → ∀ c, r'.get? h = some c → c.isStale = false := by
    rintro rfl c hc
    exact not_isStale_of_refer hr.stillborn hok hc
  have hsame (hid : r.handle? id = some h) (i : String) :
      r.handle? i = if i = id then some h else r.handle? i := by
    split
    · next heq => exact heq ▸ hid
    · rfl
  have hspec := refer_spec kinds r id kind props owner
  rw [hok] at hspec
  dsimp only at hspec
  generalize hx : (Except.ok (h, changed) : Except Error (Handle × Bool)) = x at hspec
  cases hspec with
  | refused e => cases hx
  | failed => cases hx
  | stillborn _ hborn =>
      rw [hr.stillborn] at hborn
      cases hborn
  | @inside k hid hnone =>
      obtain ⟨rfl, -⟩ := Prod.mk.inj (Except.ok.inj hx)
      refine ⟨.inl hid, hsame hid, fun _ _ => rfl, fun _ _ => .rfl, ?_, ?_, fun _ h => h, rfl⟩
      · exact fun c hc => (by cases hnone.symm.trans hc)
      · exact fun c hc => (by cases hnone.symm.trans hc)
  | @stale k c hid _ hc _ =>
      obtain ⟨rfl, -⟩ := Prod.mk.inj (Except.ok.inj hx)
      have hget := get?_handOver kinds hc props owner
      obtain ⟨queue, hq, hin, -⟩ := schedule_eq ((r.handOver kinds h c props owner).see h) h
      refine ⟨.inl hid, fun i => ?_, fun j hj => ?_, fun j hj => mem_queue_schedule_of_ne hj,
        fun d _ _ => ?_, fun d hd => ?_, fun _ hnone => (by cases hnone.symm.trans hc), ?_⟩
      · rw [hq]
        exact hsame hid i
      · rw [get?_schedule]
        exact (hget j).trans (if_neg hj)
      · rw [hq]
        exact hin
      · rw [get?_schedule] at hd
        obtain rfl := Option.some.inj (((hget h).trans (if_pos rfl)).symm.trans hd)
        rw [hc]
        rfl
      · rw [hq]
        rfl
  | @unchanged k c hid _ hc _ =>
      obtain ⟨rfl, hchanged⟩ := Prod.mk.inj (Except.ok.inj hx)
      have hget := get?_handOver kinds hc props owner
      refine ⟨.inl hid, hsame hid, fun j hj => (hget j).trans (if_neg hj), fun _ _ => .rfl,
        fun d hd hstale => ?_, fun d hd => ?_, fun _ hnone => (by cases hnone.symm.trans hc), rfl⟩
      · exact absurd hstale (Bool.eq_false_iff.mp (hcalm hchanged d hd))
      · obtain rfl := Option.some.inj (((hget h).trans (if_pos rfl)).symm.trans hd)
        rw [hc]
        rfl
  | @created a b hid _ _ =>
      obtain ⟨rfl, -⟩ := Prod.mk.inj (Except.ok.inj hx)
      have hget := get?_create hr.spare_empty id kind b owner
      have hrest := r.create_rest id kind b owner
      have hnone : r.get? r.takeHandle.1 = none := get?_takeHandle hr.spare_empty
      obtain ⟨queue, hq, hin, -⟩ := schedule_eq
        ((r.create id kind b owner).see r.takeHandle.1) r.takeHandle.1
      refine ⟨.inr ⟨hid, hnone⟩, fun i => ?_, fun j hj => ?_,
        fun j hj => (mem_queue_schedule_of_ne hj).trans ?_,
        fun d _ _ => ?_, fun d hd => ?_, fun hid' _ => (by cases hid.symm.trans hid'), ?_⟩
      · rw [hq]
        exact handle?_create r id kind b owner i
      · rw [get?_schedule]
        exact (hget j).trans (if_neg hj)
      · rw [see, hrest]
      · rw [hq]
        exact hin
      · rw [get?_schedule] at hd
        obtain rfl := Option.some.inj (((hget _).trans (if_pos rfl)).symm.trans hd)
        rw [hnone]
        cases owner <;> rfl
      · rw [hq, see, hrest]

/-! ## Drawings -/

variable {host : Host} {p q : Pass} {h : Handle} {c : Component} {rs : Refs}
variable {fs : List (String × Stream.Flush)} {t : Tree}

/-- References may be made while a component is drawn. -/
theorem Ready.begun (hr : p.roster.Ready) (h : Handle) (c : Component) :
    (begun p h c).roster.Ready := by
  have hkept : ({ p.roster with queue := p.roster.queue.tail }.keepState c).Ready :=
    hr.congr rfl rfl rfl rfl
  exact hkept.vacate h

/-- The record of a component that was drawn is put back where it was, with its new tree. -/
theorem Draws.put_back (hd : Draws host p h c rs fs q (.ok t)) (hr : p.roster.Arena)
    (former : FormerTrees) :
    q.roster.get? h = none ∧ (settle q h c former (.ok t)).2.2.roster.Arena ∧
      ∀ k, (settle q h c former (.ok t)).2.2.roster.get? k =
        if k = h then some { c with tree := some t, assigns := c.assigns.settled }
        else q.roster.get? k := by
  obtain ⟨haway, harena, -⟩ := hd.grows hr
  have hlt := hd.lt_slots hr
  refine ⟨haway.get?, ?_, get?_put hlt { c with tree := some t, assigns := c.assigns.settled }⟩
  have hback : ((q.roster.put h c).put h
      { c with tree := some t, assigns := c.assigns.settled }).Arena :=
    harena.put ((get?_put hlt c h).trans (if_pos rfl)) rfl rfl rfl
  rw [put_put] at hback
  exact hback

end ViewSync.Roster
