import ViewSync.Proofs.Pass.Outside
import ViewSync.Proofs.View.Durable
import ViewSync.Proofs.View.Standing

/-!
# Views without stream entries

In a view whose templates have no stream holes, no component is ever in a stream entry: references
give no owner to a record, and nothing else changes what owner it has. So whether a component stays
at the end of a pass is a matter of what was seen alone.
-/

namespace ViewSync

namespace Roster

/-- No component is in a stream entry. -/
def Unowned (r : Roster) : Prop := ∀ c, some c ∈ r.slots → c.owner = none

variable {r : Roster}

theorem Unowned.owner_eq (hr : r.Unowned) {h : Handle} {c : Component} (hc : r.get? h = some c) :
    c.owner = none :=
  hr c (List.mem_of_getElem? (get?_eq_some_iff.mp hc))

theorem Unowned.put (hr : r.Unowned) (h : Handle) {c : Component} (hc : c.owner = none) :
    (r.put h c).Unowned := by
  intro d hd
  rcases List.mem_or_eq_of_mem_set hd with hd | heq
  · exact hr d hd
  · rw [Option.some.inj heq]
    exact hc

theorem durable_unowned : Durable Unowned (·.owner = none) where
  congr hr hslots _ _ c hc := hr c (hslots ▸ hc)
  record hr hc := hr.owner_eq hc
  rewrite hc howner := howner.trans hc
  put h hr hc := hr.put h hc
  vacate h hr c hc := by
    rcases List.mem_or_eq_of_mem_set hc with hc | heq
    · exact hr c hc
    · cases heq
  unlist _ hr := hr

/-- A reference from outside of stream entries gives no owner. -/
theorem Unowned.refer (hr : r.Unowned) (kinds : Kinds) (id : String) (kind : KindRef)
    (props : Fields) : (r.refer kinds id kind props none).2.Unowned := by
  have hspec := refer_spec kinds r id kind props none
  generalize (r.refer kinds id kind props none).1 = x at hspec
  generalize (r.refer kinds id kind props none).2 = r' at hspec ⊢
  have hover {h : Handle} {c : Component} (hc : r.get? h = some c) :
      (r.handOver kinds h c props none).Unowned := by
    have hkeep : (r.keepState c).Unowned := hr
    have hnone : (none <|> c.owner) = none := hr.owner_eq hc
    exact hkeep.put h hnone
  cases hspec with
  | refused e => exact hr
  | stillborn => exact hr
  | inside => exact hr
  | failed _ _ hc _ => exact hover hc
  | @stale h c _ _ hc _ =>
      obtain ⟨queue, hq, -⟩ := schedule_eq ((r.handOver kinds h c props none).see h) h
      rw [hq]
      exact hover hc
  | unchanged _ _ hc _ => exact hover hc
  | @created a b _ _ _ =>
      obtain ⟨queue, hq, -⟩ := schedule_eq ((r.create id kind b none).see r.takeHandle.1)
        r.takeHandle.1
      rw [hq]
      have htake : r.takeHandle.2.Unowned := by
        rcases takeHandle_cases r with ⟨rest, -, hroster⟩ | ⟨-, -, hroster⟩
        · rw [hroster]
          exact hr
        · rw [hroster]
          intro c hc
          rcases List.mem_append.mp hc with hc | hc
          · exact hr c hc
          · simp at hc
      have hput := htake.put r.takeHandle.1
        (c := { id, handle := r.takeHandle.1, kind, assigns := b }) rfl
      exact hput

theorem outside_unowned (kinds : Kinds) : Pass.Outside kinds fun p => p.roster.Unowned where
  refer _ id kind props hp := hp.refer kinds id kind props
  follow _ _ hp := hp
  note _ _ hp := hp

end Roster

namespace View

open Roster

variable {v v' : View}

/-- A pass leaves no component in a stream entry. -/
theorem unowned_renderAll (hs : Standing Shape.StreamFree v) (hv : v.roster.Unowned) {fuel : Nat}
    {done : Rendering} {p : Pass} (hall : v.renderAll fuel v.opened = some (.ok done, p)) :
    p.roster.Unowned :=
  durable_unowned.renderAll
    (fun key a s before =>
      Pass.outside_template (outside_unowned v.host.kinds) s (hs.kinds key a) before)
    (fun s before => Pass.outside_template (outside_unowned v.host.kinds) s hs.root before) hv hall

/-- **Where no template has a stream hole, no component is in a stream entry.** -/
theorem unowned_reachable {host : Host} {root : Template} (hfree : StreamFree host root)
    (hv : Reachable host root v) : Standing Shape.StreamFree v ∧ v.roster.Unowned := by
  refine hv.invariant (P := fun v => Standing Shape.StreamFree v ∧ v.roster.Unowned)
    ⟨standing_start hfree.1 hfree.2, fun _ hc => (by cases hc)⟩ ?_
  intro v v' cmd answer ⟨hs, hv⟩ hx
  refine ⟨hs.exec hx, durable_unowned.exec (fun key a s before => ?_) (fun s before => ?_) ?_
    hs.resting hv hx⟩
  · exact Pass.outside_template (outside_unowned v.host.kinds) s (hs.kinds key a) before
  · exact Pass.outside_template (outside_unowned v.host.kinds) s hs.root before
  · exact fun r id kind props hr => hr.refer v.host.kinds id kind props

end View

end ViewSync
