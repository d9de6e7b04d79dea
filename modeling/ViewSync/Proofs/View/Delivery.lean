import ViewSync.Proofs.Patch.Edits
import ViewSync.Proofs.Stream.Numbers
import ViewSync.Proofs.View.Ordered

/-!
# What becomes of a stream's flush

A flush that is not taken by any hole stays with its stream. One that the root takes is in the patch
of the root. One that a component takes is in the patch of that component, unless the drawing comes
to nothing: it may fail after the stream's hole, the component may be drawn again in the same pass,
or it may be gone at the end. In these cases the flush is lost, since the stream counts it as sent;
in all others the client is told of it, once, and the same as was prepared.
-/

namespace ViewSync

/-! ## One flush among all -/

namespace Pass

/-- No flush that is left but this one has its name or its number. -/
structure Alone (name : String) (f : Stream.Flush) (p : Pass) : Prop where
  /-- No two flushes are of one stream. -/
  nodup : (p.flushes.map Prod.fst).Nodup
  /-- This is the one of the stream, and the only one with its number. -/
  only : ∀ e ∈ p.flushes, e.1 = name ∨ e.2.number = f.number → e = (name, f)

variable {name : String} {f : Stream.Flush} {kinds : Kinds} {p q : Pass} {rs : Refs}
variable {fs : List (String × Stream.Flush)}

theorem mem_takenBetween :
    name ∈ Roster.takenBetween p q ↔ p.flushes.has name = true ∧ q.flushes.has name = false := by
  unfold Roster.takenBetween
  rw [List.mem_filter, Keyed.mem_keys_iff_has]
  simp

/-- Of the edits that were taken those of the stream are there, once, if its flush was taken. -/
theorem Alone.course (hp : Alone name f p) (h : Course kinds p rs fs q) :
    Alone name f q ∧ (q.flushes.has name = true → p.flushes.has name = true) ∧
      (editsTaken fs).filter (·.number = f.number) =
        if name ∈ Roster.takenBetween p q then [f.edits] else [] := by
  have hperm := h.flushes_perm hp.nodup
  have hkeys : ((fs ++ q.flushes).map Prod.fst).Nodup := (hperm.map Prod.fst).nodup_iff.mpr hp.nodup
  have hmem (e : String × Stream.Flush) : e ∈ fs ∨ e ∈ q.flushes ↔ e ∈ p.flushes := by
    rw [← List.mem_append]
    exact hperm.mem_iff
  rw [List.map_append] at hkeys
  obtain ⟨hfs, hq, hdisjoint⟩ := List.nodup_append'.mp hkeys
  have hleft (hhas : q.flushes.has name = true) : p.flushes.has name = true := by
    obtain ⟨e, he, heq⟩ := List.mem_map.mp (Keyed.mem_keys_iff_has.mpr hhas)
    refine Keyed.mem_keys_iff_has.mp (heq ▸ List.mem_map_of_mem (f := Prod.fst) ?_)
    exact (hmem e).mp (.inr he)
  refine ⟨⟨hq, fun e he => hp.only e ((hmem e).mp (.inr he))⟩, hleft, ?_⟩
  have hmine : (editsTaken fs).filter (·.number = f.number) =
      editsTaken (fs.filter fun e => e.2.number = f.number) := by
    rw [editsTaken, List.filter_map]
    rfl
  have hall : ∀ e ∈ fs.filter fun e => e.2.number = f.number, e = (name, f) := by
    intro e he
    obtain ⟨he, hnumber⟩ := List.mem_filter.mp he
    exact hp.only e ((hmem e).mp (.inl he)) (.inr (by simpa using hnumber))
  have hnodup : (fs.filter fun e => e.2.number = f.number).Nodup :=
    (List.Nodup.of_map Prod.fst hfs).filter _
  rw [hmine]
  split
  · next htaken =>
      obtain ⟨hhas, hnot⟩ := mem_takenBetween.mp htaken
      obtain ⟨e, he, heq⟩ := List.mem_map.mp (Keyed.mem_keys_iff_has.mpr hhas)
      obtain rfl := hp.only e he (.inl heq)
      have hin : (name, f) ∈ fs := by
        refine ((hmem _).mpr he).resolve_right fun hin => ?_
        rw [Keyed.mem_keys_iff_has.mp (List.mem_map_of_mem (f := Prod.fst) hin)] at hnot
        cases hnot
      have hone : (fs.filter fun e => e.2.number = f.number) = [(name, f)] := by
        refine List.perm_singleton.mp
          ((List.perm_ext_iff_of_nodup hnodup (List.nodup_singleton _)).mpr fun e => ?_)
        rw [List.mem_singleton]
        refine ⟨hall e, ?_⟩
        rintro rfl
        exact List.mem_filter.mpr ⟨hin, by simp⟩
      rw [hone]
      rfl
  · next htaken =>
      have hnone : (fs.filter fun e => e.2.number = f.number) = [] := by
        refine List.eq_nil_iff_forall_not_mem.mpr fun e he => htaken ?_
        obtain rfl := hall e he
        have hin := (List.mem_filter.mp he).1
        have hkey := List.mem_map_of_mem (f := Prod.fst) hin
        refine mem_takenBetween.mpr ⟨?_, ?_⟩
        · exact Keyed.mem_keys_iff_has.mp
            (List.mem_map_of_mem (f := Prod.fst) ((hmem _).mp (.inl hin)))
        · rw [Bool.eq_false_iff, Ne, ← Keyed.mem_keys_iff_has]
          exact fun hin' => hdisjoint hkey hin'
      rw [hnone]
      rfl

end Pass

/-! ## The flush in what is drawn -/

namespace Roster

/-- A drawing comes to nothing when it fails, when its component is drawn again later in the pass,
and when its component is gone at the end of it. -/
def Drawing.Wasted (gone : List Handle) (later : List Drawing) (d : Drawing) : Prop :=
  d.result.toOption = none ∨ lastDrawn later d.handle ≠ none ∨ d.handle ∈ gone

/-- A tree that was drawn has the edits of a flush that its drawing took, once, and no others of the
stream. -/
def Drawing.Shows (name : String) (f : Stream.Flush) (d : Drawing) : Prop :=
  ∀ t, d.result = .ok t →
    t.edits.filter (·.number = f.number) = if name ∈ d.taken then [f.edits] else []

variable {host : Host} {p₀ p : Pass} {ds : List Drawing} {former : FormerTrees}
variable {name : String} {f : Stream.Flush} {S : Shape → Prop} {r₀ : Roster}

/-- **A flush is taken once, or is left to the end**, and is in the tree of the drawing that took
it. -/
theorem Drains.shows (hS : ∀ key a, S ((host.kinds key).render a).shape)
    (hp₀ : Redrawn S r₀ none p₀.roster []) (halone : Pass.Alone name f p₀)
    (hd : Drains host p₀ ds p former) :
    Pass.Alone name f p ∧ (∀ d ∈ ds, d.Shows name f) ∧
      ds.countP (name ∈ ·.taken) + (p.flushes.has name).toNat = (p₀.flushes.has name).toNat := by
  refine hd.induct (P := fun ds p _ => Pass.Alone name f p ∧ (∀ d ∈ ds, d.Shows name f) ∧
    ds.countP (name ∈ ·.taken) + (p.flushes.has name).toNat = (p₀.flushes.has name).toNat)
    hS hp₀ ⟨halone, List.forall_mem_nil _, Nat.zero_add _⟩ (fun ih _ _ => ?_) ?_
  · exact ⟨⟨ih.1.nodup, ih.1.only⟩, ih.2⟩
  · intro ds p former h c rs fs q result ih _ hdraw
    obtain ⟨halone, hshows, hcount⟩ := ih
    have hbegun : Pass.Alone name f (begun p h c) := ⟨halone.nodup, halone.only⟩
    obtain ⟨hq, hleft, hmine⟩ := hbegun.course hdraw.course
    have hflushes := (settle_rest q h c former result).1
    refine ⟨⟨hflushes ▸ hq.nodup, hflushes ▸ hq.only⟩, ?_, ?_⟩
    · refine List.forall_mem_append.mpr ⟨hshows, List.forall_mem_singleton.mpr fun t ht => ?_⟩
      rw [(hdraw.tells t ht).edits]
      exact hmine
    · rw [List.countP_append, hflushes, ← hcount, Nat.add_assoc]
      congr 1
      have hhas : (begun p h c).flushes.has name = p.flushes.has name := rfl
      rw [hhas] at hleft
      have htaken : name ∈ takenBetween p q ↔ p.flushes.has name = true ∧
          q.flushes.has name = false := Pass.mem_takenBetween
      rw [List.countP_singleton]
      cases hp : p.flushes.has name with
      | false =>
          have hqnot : q.flushes.has name = false := by
            cases hq : q.flushes.has name with
            | false => rfl
            | true => rw [hleft hq] at hp; cases hp
          simp [htaken, hp, hqnot]
      | true => cases hq : q.flushes.has name <;> simp [htaken, hp, hq]

/-! ## The drawing that took a flush -/

variable {earlier later : List Drawing} {d : Drawing}

/-- Where a flush was taken once, the other drawings have not taken it. -/
theorem others_of_countP (hone : (earlier ++ d :: later).countP (name ∈ ·.taken) ≤ 1)
    (hd : name ∈ d.taken) :
    (∀ x ∈ earlier, name ∉ x.taken) ∧ ∀ x ∈ later, name ∉ x.taken := by
  rw [List.countP_append, List.countP_cons_of_pos (by simpa using hd)] at hone
  have hnone (ds : List Drawing) (hds : ds.countP (name ∈ ·.taken) = 0) :
      ∀ x ∈ ds, name ∉ x.taken := by
    intro x hx
    simpa using List.countP_eq_zero.mp hds x hx
  exact ⟨hnone earlier (by omega), hnone later (by omega)⟩

/-- The tree that a component has in the end has the edits if it comes from that drawing, and no
edits of the stream otherwise. -/
theorem edits_lastDrawn (hshows : ∀ x ∈ earlier ++ d :: later, x.Shows name f)
    (hd : name ∈ d.taken) (hearlier : ∀ x ∈ earlier, name ∉ x.taken)
    (hlater : ∀ x ∈ later, name ∉ x.taken) {h : Handle} {t : Tree}
    (ht : lastDrawn (earlier ++ d :: later) h = some t) :
    t.edits.filter (·.number = f.number) =
      if d.handle = h ∧ d.result.toOption ≠ none ∧ lastDrawn later h = none then [f.edits]
      else [] := by
  have hother {ds : List Drawing} (hsub : ∀ x ∈ ds, x ∈ earlier ++ d :: later)
      (hds : ∀ x ∈ ds, name ∉ x.taken) (ht : lastDrawn ds h = some t) :
      t.edits.filter (·.number = f.number) = [] := by
    obtain ⟨x, hx, -, hresult⟩ := lastDrawn_mem ht
    rw [hshows x (hsub x hx) t hresult, if_neg (hds x hx)]
  have hcons : d :: later = [d] ++ later := rfl
  rw [hcons, lastDrawn_append, lastDrawn_append, lastDrawn_singleton] at ht
  cases hl : lastDrawn later h with
  | some u =>
      rw [hl, Option.some_or, Option.some_or] at ht
      obtain rfl := Option.some.inj ht
      rw [if_neg (by simp)]
      exact hother (fun x hx => List.mem_append_right _ (List.mem_cons_of_mem _ hx)) hlater hl
  | none =>
      rw [hl, Option.none_or] at ht
      split at ht
      · next heq =>
          cases hresult : d.result with
          | ok u =>
              rw [hresult] at ht
              obtain rfl : u = t := Option.some.inj ht
              rw [if_pos ⟨heq, by simp [Except.toOption], rfl⟩,
                hshows d (by simp) u hresult, if_pos hd]
          | error e =>
              rw [hresult] at ht
              rw [if_neg (by simp [Except.toOption])]
              exact hother (fun x hx => List.mem_append_left _ hx) hearlier ht
      · next hne =>
          rw [Option.none_or] at ht
          rw [if_neg fun hall => hne hall.1]
          exact hother (fun x hx => List.mem_append_left _ hx) hearlier ht

end Roster

/-! ## What is sent of a stream -/

namespace View

open Roster

variable {v : View}

theorem numbered_exec {cmd : Command} {answer : Answer} {v' : View} (hv : v.streams.Numbered)
    (hx : v.exec cmd = some (answer, v')) : v'.streams.Numbered := by
  cases effect_of_exec hx with
  | keyStream name keyOf => exact hv.keyBy name keyOf
  | changeStream unsent hc => exact hv.change hc
  | render hr =>
      rcases render_cases hr with ⟨e, p, -, -, rfl⟩ | ⟨done, p, -, -, rfl⟩
      · exact hv
      · exact hv.adopt _
  | close => exact .clear v.streams
  | _ => exact hv

theorem numbered_reachable {host : Host} {root : Template} (hv : Reachable host root v) :
    v.streams.Numbered :=
  hv.invariant (P := fun v => v.streams.Numbered) (Streams.Numbered.clear {})
    fun _ _ _ _ => numbered_exec

/-- What a pass makes of the streams: those that had something waiting adopt what the client holds
once it has that, unless the flush was left. -/
theorem streams_settle (hv : v.streams.Numbered) (done : Rendering) (p : Pass) (name : String) :
    (v.settle v.streams.plans done p).2.streams.get? name = (v.streams.get? name).map fun s =>
      (if p.flushes.has name then none else Keyed.get? v.streams.plans name).elim s
        fun plan => s.adopt plan.held := by
  have hheld (l : List (String × Stream.Plan)) :
      Keyed.get? (l.map fun e => (e.1, e.2.held)) name =
        (Keyed.get? l name).map Stream.Plan.held := by
    induction l with
    | nil => rfl
    | cons e l ih =>
        simp only [List.map_cons, Keyed.get?]
        split
        · rfl
        · exact ih
  change (v.streams.adopt ((v.streams.plans.filter fun e => !p.flushes.has e.1).map
    fun e => (e.1, e.2.held))).get? name = _
  have hnames : (((v.streams.plans.filter fun e => !p.flushes.has e.1).map
      fun e => (e.1, e.2.held)).map Prod.fst).Nodup := by
    rw [List.map_map]
    exact (hv.names.sublist (Streams.names_plans v.streams)).sublist (List.filter_sublist.map _)
  rw [Streams.get?_adopt hnames, hheld,
    Keyed.get?_filter_keys v.streams.plans (fun k => !p.flushes.has k) name]
  cases p.flushes.has name <;> cases Keyed.get? v.streams.plans name <;> rfl

section Stream

variable {name : String} {s : Stream} (hv : v.streams.Numbered)
variable (hs : v.streams.get? name = some s) (hwait : s.isWaiting = true)
include hv hs hwait

/-- A pass starts with the flush of every stream that waits. -/
theorem get?_flushes_opened : v.opened.flushes.get? name = some (s.plan name).flush := by
  have hnames : ((v.streams.plans.map fun e => (e.1, e.2.flush)).map Prod.fst).Nodup := by
    rw [List.map_map]
    exact hv.names.sublist (Streams.names_plans v.streams)
  have hplan := Keyed.mem_of_get? (Streams.get?_plans hv.names hs hwait)
  unfold opened
  dsimp only
  rw [Keyed.get?_ofList hnames]
  exact Keyed.get?_of_mem hnames (List.mem_map_of_mem hplan)

omit hs hwait in
/-- A pass starts with no other flushes. -/
theorem waits_of_opened {f : Stream.Flush} (hf : v.opened.flushes.get? name = some f) :
    ∃ s, v.streams.get? name = some s ∧ s.isWaiting = true ∧ f = (s.plan name).flush := by
  obtain ⟨⟨k, plan⟩, hplan, heq⟩ := List.mem_map.mp (Keyed.mem_of_mem_ofList (Keyed.mem_of_get? hf))
  obtain ⟨rfl, rfl⟩ := Prod.mk.inj heq
  obtain ⟨⟨k', s⟩, hmem, heq⟩ := List.mem_map.mp hplan
  obtain ⟨rfl, rfl⟩ := Prod.mk.inj heq
  obtain ⟨hall, hwait⟩ := List.mem_filter.mp hmem
  exact ⟨s, Keyed.get?_of_mem hv.names hall, hwait, rfl⟩

/-- A pass starts with the flush of every stream that waits, and with no other of its name or
number. -/
theorem alone_opened : Pass.Alone name (s.plan name).flush v.opened ∧
    v.opened.flushes.has name = true := by
  refine ⟨⟨Keyed.nodup_keys (Keyed.sorted_ofList _), fun e he hsame => ?_⟩, ?_⟩
  · obtain ⟨⟨k, plan⟩, hk, rfl⟩ := List.mem_map.mp (Keyed.mem_of_mem_ofList he)
    obtain ⟨⟨k', t⟩, ht, heq⟩ := List.mem_map.mp hk
    obtain ⟨rfl, rfl⟩ := Prod.mk.inj heq
    have ht := Keyed.get?_of_mem hv.names (List.mem_filter.mp ht).1
    have hname : k' = name := hsame.elim id fun hnumber => hv.eq_of_number_eq hs ht hnumber
    subst hname
    obtain rfl := Option.some.inj (ht.symm.trans hs)
    rfl
  · rw [Keyed.has, get?_flushes_opened hv hs hwait]
    rfl

/-- The queue of a stream is cleared when its flush was taken, and left alone otherwise. -/
theorem get?_settle_streams (done : Rendering) (p : Pass) :
    (v.settle v.streams.plans done p).2.streams.get? name =
      some (if p.flushes.has name then s else s.adopt (s.plan name).held) := by
  rw [streams_settle hv, hs, Streams.get?_plans hv.names hs hwait]
  cases p.flushes.has name <;> rfl

end Stream

/-- A stream that does not wait is left as it is. -/
theorem get?_settle_idle {name : String} {s : Stream} (hv : v.streams.Numbered)
    (hs : v.streams.get? name = some s) (hidle : s.isWaiting = false) (done : Rendering)
    (p : Pass) : (v.settle v.streams.plans done p).2.streams.get? name = some s := by
  have hnone : Keyed.get? v.streams.plans name = none := by
    refine Keyed.get?_of_not_mem_keys fun hin => ?_
    obtain ⟨⟨k, plan⟩, hmem, rfl⟩ := List.mem_map.mp hin
    obtain ⟨⟨k', t⟩, ht, heq⟩ := List.mem_map.mp hmem
    obtain ⟨rfl, -⟩ := Prod.mk.inj heq
    obtain ⟨hall, hwait⟩ := List.mem_filter.mp ht
    obtain rfl := Option.some.inj ((Keyed.get?_of_mem hv.names hall).symm.trans hs)
    cases hidle.symm.trans hwait
  rw [streams_settle hv, hs, hnone, ite_self]
  rfl

section Account

variable {S : Shape → Prop} {fuel : Nat} {done : Rendering} {p p₁ p₂ : Pass} {root : Tree}
variable {rs : Refs} {fs : List (String × Stream.Flush)} {former : FormerTrees}
variable (ha : Account S v fuel done p root rs fs p₁ p₂ former)
include ha

/-- What is sent of a component has the edits that are in its new tree. -/
theorem Account.edits_component {h : Handle} {q : Patch} (hmem : (h, q) ∈ done.components) :
    ∃ t, lastDrawn (v.drawings fuel) h = some t ∧ q.edits = t.edits := by
  obtain ⟨before, c, t, hformer, hc, htree, hpatch⟩ := ha.compared.sound h q hmem
  obtain ⟨-, -, hget⟩ := dropStillborn_rest p₂.roster
  rw [hget] at hc
  split at hc
  · cases hc
  · have htree := (tree?_of_get? hc).trans htree
    obtain ⟨htrees, hnoted⟩ := ha.tree?_drained h
    obtain ⟨u, hu⟩ := Option.ne_none_iff_exists'.mp (hnoted.mp (List.mem_map_of_mem hformer))
    rw [htree, hu, Option.some_or] at htrees
    refine ⟨t, htrees ▸ hu, ?_⟩
    rw [Tree.patchFrom_edits ((ha.redrawn₂.suits h t htree).blank _).1 hpatch, Tree.edits_blank]

/-- A component that was drawn is sent the patch to its new tree, unless there is nothing to say. -/
theorem Account.compares (hrest : v.roster.Resting) (htidy : Tidy none [] v.roster) {h : Handle}
    {t : Tree} (ht : lastDrawn (v.drawings fuel) h = some t) :
    ∃ q, Tree.patchFrom .nowhere (v.roster.tree? h) (t.blank p₂.roster.stillborn) = .ok q ∧
      (q.isEmpty = true ∨ (h, q) ∈ done.components) := by
  obtain ⟨htrees, hnoted⟩ := ha.tree?_drained h
  rw [ht, Option.some_or] at htrees
  obtain ⟨⟨k, before⟩, hbefore, heq⟩ :=
    List.mem_map.mp (hnoted.mpr (by rw [ht]; exact Option.some_ne_none t))
  obtain rfl : h = k := heq.symm
  have hnodup := Keyed.nodup_keys ha.redrawn₂.sorted
  obtain rfl := (ha.redrawn₂.noted h before (Keyed.get?_of_mem hnodup hbefore)).1
  obtain ⟨hstillborn, -, hget⟩ := dropStillborn_rest p₂.roster
  cases hc : p₂.roster.get? h with
  | none =>
      rw [tree?_of_none hc] at htrees
      cases htrees
  | some c =>
      have htree : c.tree = some t := (tree?_of_get? hc).symm.trans htrees
      -- what is stillborn has no tree
      have hborn : h ∉ p₂.roster.stillborn := by
        intro hin
        obtain ⟨-, d, hd, hnone⟩ := (ha.tidy hrest htidy).stillborn h hin
        obtain rfl := Option.some.inj (hc.symm.trans hd)
        rw [htree] at hnone
        cases hnone
      have hc' : p₂.roster.dropStillborn.get? h = some c := by rw [hget, if_neg hborn, hc]
      have hcompared := ha.compared.complete h _ c t hbefore hc' htree
      rwa [hstillborn] at hcompared

/-- A new tree with edits in it is sent. -/
theorem Account.sends (hrest : v.roster.Resting) (htidy : Tidy none [] v.roster) {h : Handle}
    {t : Tree} (ht : lastDrawn (v.drawings fuel) h = some t) (hedits : t.edits ≠ []) :
    ∃ q, (h, q) ∈ done.components := by
  obtain ⟨q, hq, hsent⟩ := ha.compares hrest htidy ht
  refine ⟨q, hsent.resolve_left fun hempty => hedits ?_⟩
  have hfits : t.Fits := by
    have htrees := (ha.tree?_drained h).1
    rw [ht, Option.some_or] at htrees
    exact (ha.redrawn₂.suits h t htrees).1
  have hsame := Tree.patchFrom_edits (hfits.blank _) hq
  rw [Tree.edits_blank] at hsame
  rw [← hsame]
  cases q with
  | replace content => cases hempty
  | update changes =>
      obtain rfl : changes = [] := List.isEmpty_iff.mp hempty
      rfl

end Account

/-! ## What becomes of it -/

/-- A drawing took the flush of a stream and came to nothing. -/
def Loses (v : View) (fuel : Nat) (gone : List Handle) (name : String) : Prop :=
  ∃ earlier d later, v.drawings fuel = earlier ++ d :: later ∧ name ∈ d.taken ∧ d.Wasted gone later

section Account

variable {S : Shape → Prop} {fuel : Nat} {done : Rendering} {p p₁ p₂ : Pass} {root : Tree}
variable {rs : Refs} {fs : List (String × Stream.Flush)} {former : FormerTrees}
variable {name : String} {f : Stream.Flush} {gone : List Handle}
variable (ha : Account S v fuel done p root rs fs p₁ p₂ former)
variable (hshows : ∀ d ∈ v.drawings fuel, d.Shows name f)
include ha hshows

/-- Components that have not taken the flush are sent nothing of it. -/
theorem Account.edits_untaken (hnone : ∀ d ∈ v.drawings fuel, name ∉ d.taken) :
    ((done.components.filter fun e => e.1 ∉ gone).flatMap fun e =>
      e.2.edits.filter (·.number = f.number)) = [] := by
  refine List.flatMap_eq_nil_iff.mpr fun e he => ?_
  obtain ⟨t, ht, heq⟩ := ha.edits_component  (List.mem_filter.mp he).1
  obtain ⟨d, hd, -, hresult⟩ := lastDrawn_mem ht
  rw [heq, hshows d hd t hresult, if_neg (hnone d hd)]

section Taken

variable {earlier later : List Drawing} {d : Drawing}
variable (hsplit : v.drawings fuel = earlier ++ d :: later) (hd : name ∈ d.taken)
variable (hone : (v.drawings fuel).countP (name ∈ ·.taken) ≤ 1)
include hsplit hd hone

/-- What a component is sent of a flush that one drawing took. -/
theorem Account.edits_taken {h : Handle} {q : Patch} (hmem : (h, q) ∈ done.components) :
    q.edits.filter (·.number = f.number) =
      if d.handle = h ∧ d.result.toOption ≠ none ∧ lastDrawn later h = none then [f.edits]
      else [] := by
  rw [hsplit] at hone hshows
  obtain ⟨hearlier, hlater⟩ := others_of_countP hone hd
  obtain ⟨t, ht, heq⟩ := ha.edits_component hmem
  rw [heq]
  exact edits_lastDrawn hshows hd hearlier hlater (hsplit ▸ ht)

/-- Nothing of a flush is sent if the drawing that took it is wasted. -/
theorem Account.edits_wasted (hwasted : d.Wasted gone later) :
    ((done.components.filter fun e => e.1 ∉ gone).flatMap fun e =>
      e.2.edits.filter (·.number = f.number)) = [] := by
  refine List.flatMap_eq_nil_iff.mpr fun e he => ?_
  obtain ⟨hmem, hleft⟩ := List.mem_filter.mp he
  rw [ha.edits_taken hshows hsplit hd hone hmem, if_neg ?_]
  rintro ⟨heq, hresult, hlast⟩
  rcases hwasted with hfailed | hagain | hgone
  · exact hresult hfailed
  · exact hagain (heq ▸ hlast)
  · rw [heq] at hgone
    simp [hgone] at hleft

/-- All of it is sent, once, if the drawing is not wasted. -/
theorem Account.edits_drawn (hrest : v.roster.Resting) (htidy : Tidy none [] v.roster)
    (hkept : ¬d.Wasted gone later) :
    ((done.components.filter fun e => e.1 ∉ gone).flatMap fun e =>
      e.2.edits.filter (·.number = f.number)) = [f.edits] := by
  have hresult : d.result.toOption ≠ none := fun h => hkept (.inl h)
  have hlast : lastDrawn later d.handle = none :=
    Classical.byContradiction fun h => hkept (.inr (.inl h))
  have hleft : d.handle ∉ gone := fun h => hkept (.inr (.inr h))
  -- the component has the tree of this drawing, which is sent since there are edits in it
  obtain ⟨t, ht⟩ := Option.ne_none_iff_exists'.mp hresult
  have hdrawn : lastDrawn (v.drawings fuel) d.handle = some t :=
    hsplit ▸ lastDrawn_of_last ht hlast
  have hok : d.result = .ok t := by
    cases hres : d.result with
    | ok u => rw [hres] at ht; exact congrArg _ (Option.some.inj ht)
    | error e => rw [hres] at ht; cases ht
  have hedits : t.edits ≠ [] := by
    intro hempty
    have hmine := hshows d (hsplit ▸ List.mem_append_right _ List.mem_cons_self) t hok
    rw [hempty, if_pos hd] at hmine
    cases hmine
  obtain ⟨q, hq⟩ := ha.sends hrest htidy hdrawn hedits
  have hnodup : ((done.components.filter fun e => e.1 ∉ gone).map Prod.fst).Nodup :=
    ha.brought.keys.sublist (List.filter_sublist.map Prod.fst)
  have hmem : (d.handle, q) ∈ done.components.filter fun e => e.1 ∉ gone :=
    List.mem_filter.mpr ⟨hq, by simpa using hleft⟩
  rw [Keyed.flatMap_eq_of_mem hnodup hmem fun e he hne => ?_]
  · exact (ha.edits_taken hshows hsplit hd hone hq).trans (if_pos ⟨rfl, hresult, hlast⟩)
  · rw [ha.edits_taken hshows hsplit hd hone (List.mem_filter.mp he).1,
      if_neg fun hall => hne hall.1.symm]

end Taken

end Account

/-- The three ways of a flush: it stays with its stream, it is sent, or it is lost. -/
theorem Account.flush_cases {S : Shape → Prop} {fuel : Nat} {done : Rendering} {p p₁ p₂ : Pass}
    {root : Tree} {rs : Refs} {fs : List (String × Stream.Flush)} {former : FormerTrees}
    {name : String} {f : Stream.Flush} (gone : List Handle)
    (ha : Account S v fuel done p root rs fs p₁ p₂ former) (hrest : v.roster.Resting)
    (htidy : Tidy none [] v.roster) (halone : Pass.Alone name f v.opened)
    (hhas : v.opened.flushes.has name = true) :
    let mine := done.patch.edits.filter (·.number = f.number) ++
      (done.components.filter fun e => e.1 ∉ gone).flatMap fun e =>
        e.2.edits.filter (·.number = f.number)
    (p.flushes.has name = true ∧ ¬v.Loses fuel gone name) ∨
      (p.flushes.has name = false ∧ ¬v.Loses fuel gone name ∧ mine = [f.edits]) ∨
      (p.flushes.has name = false ∧ v.Loses fuel gone name ∧ mine = []) := by
  obtain ⟨halone₁, -, hroot⟩ := halone.course ha.course
  obtain ⟨-, hshows, hcount⟩ := ha.drains.shows ha.kinds ha.redrawn halone₁
  have hpatch : done.patch.edits = Pass.editsTaken fs := by
    have hfits : (root.blank p₂.roster.stillborn).Fits := ha.fits.blank _
    rw [Tree.patchFrom_edits (ha.root_eq ▸ hfits) ha.patch, ha.root_eq, Tree.edits_blank,
      ha.tells.edits]
  rw [hpatch, hroot, ha.flushes]
  have hloses (hzero : (v.drawings fuel).countP (name ∈ ·.taken) = 0) :
      (∀ d ∈ v.drawings fuel, name ∉ d.taken) ∧ ¬v.Loses fuel gone name := by
    have hnone (d : Drawing) (hd : d ∈ v.drawings fuel) : name ∉ d.taken := by
      simpa using List.countP_eq_zero.mp hzero d hd
    refine ⟨hnone, ?_⟩
    rintro ⟨earlier, d, later, hsplit, hd, -⟩
    exact hnone d (hsplit ▸ List.mem_append_right _ List.mem_cons_self) hd
  cases hp₁ : p₁.flushes.has name with
  | false =>
      -- the root took it
      rw [hp₁] at hcount
      have hzero : (v.drawings fuel).countP (name ∈ ·.taken) = 0 := by
        simp only [Bool.toNat_false] at hcount
        omega
      have hp₂ : p₂.flushes.has name = false := by
        cases hp₂ : p₂.flushes.has name with
        | false => rfl
        | true =>
            rw [hp₂] at hcount
            simp only [Bool.toNat_true, Bool.toNat_false] at hcount
            omega
      obtain ⟨hnone, hkept⟩ := hloses hzero
      refine .inr (.inl ⟨hp₂, hkept, ?_⟩)
      rw [if_pos (Pass.mem_takenBetween.mpr ⟨hhas, hp₁⟩), ha.edits_untaken hshows hnone]
      rfl
  | true =>
      rw [hp₁] at hcount
      rw [if_neg fun htaken => by rw [(Pass.mem_takenBetween.mp htaken).2] at hp₁; cases hp₁]
      cases hp₂ : p₂.flushes.has name with
      | true =>
          rw [hp₂] at hcount
          exact .inl ⟨rfl, (hloses (by omega)).2⟩
      | false =>
          rw [hp₂] at hcount
          simp only [Bool.toNat_true, Bool.toNat_false] at hcount
          have hone : (v.drawings fuel).countP (name ∈ ·.taken) ≤ 1 := by omega
          by_cases hlost : v.Loses fuel gone name
          · obtain ⟨earlier, d, later, hsplit, hd, hwasted⟩ := hlost
            refine .inr (.inr ⟨rfl, ⟨earlier, d, later, hsplit, hd, hwasted⟩, ?_⟩)
            rw [ha.edits_wasted hshows hsplit hd hone hwasted]
            rfl
          · obtain ⟨d, hmem, hd⟩ := List.countP_pos_iff.mp (hcount ▸ Nat.zero_lt_one)
            obtain ⟨earlier, later, hsplit⟩ := List.append_of_mem hmem
            have hd : name ∈ d.taken := by simpa using hd
            refine .inr (.inl ⟨rfl, hlost, ?_⟩)
            rw [ha.edits_drawn hshows hsplit hd hone hrest htidy fun hwasted =>
              hlost ⟨earlier, d, later, hsplit, hd, hwasted⟩]
            rfl

/-- **When a stream keeps what it has for the client, or gets it sent.** After a pass that goes
well, its queue is as it was, or the message has exactly the edits that were prepared for it, once,
unless a drawing took them and came to nothing. -/
theorem delivered_iff {host : Host} {root : Template} {v' : View} {fuel : Nat} {outcome : Outcome}
    {name : String} {s : Stream} (hv : Reachable host root v)
    (hr : v.render fuel = some (.ok outcome, v')) (hs : v.streams.get? name = some s)
    (hwait : s.isWaiting = true) :
    (v'.streams.get? name = some s ∨
      outcome.message.edits.filter (·.number = s.number) = [(s.plan name).flush.edits]) ↔
    ¬v.Loses fuel outcome.message.gone name := by
  have hstanding := standing_reachable hv
  have hnumbered := numbered_reachable hv
  obtain ⟨halone, hhas⟩ := alone_opened hnumbered hs hwait
  rcases render_cases hr with ⟨e, p, -, hresult, -⟩ | ⟨done, p, hall, hresult, rfl⟩
  · cases hresult
  · obtain rfl := Except.ok.inj hresult
    obtain ⟨root, hs', fs, p₁, p₂, former, ha⟩ := hstanding.account hall
    generalize hgone : (v.settle v.streams.plans done p).1.message.gone = gone
    have hmessage : (v.settle v.streams.plans done p).1.message.edits =
        done.patch.edits ++ (done.components.filter fun e => e.1 ∉ gone).flatMap
          fun e => e.2.edits := by
      rw [← hgone]
      rfl
    rw [hmessage, List.filter_append, List.filter_flatMap,
      get?_settle_streams hnumbered hs hwait done p]
    have hadopted : s.adopt (s.plan name).held ≠ s := by
      intro heq
      rw [← heq, Stream.isWaiting_adopt] at hwait
      cases hwait
    rcases ha.flush_cases gone hstanding.resting (tidy_reachable hv) halone hhas with
      ⟨hleft, hkept⟩ | ⟨htaken, hkept, hmine⟩ | ⟨htaken, hlost, hmine⟩
    · simp [hleft, hkept]
    · exact iff_of_true (.inr hmine) hkept
    · refine iff_of_false ?_ (not_not_intro hlost)
      rintro (hsame | hsent)
      · rw [htaken] at hsame
        exact hadopted (Option.some.inj hsame)
      · have hempty := hmine.symm.trans hsent
        cases hempty

/-- A list of posts, and below it a title. -/
def titledFeed : Template :=
  .hole "<ul>" (.stream "posts" "post" (.text "<li></li>"))
    (.hole "</ul>" (.value (Reads.ofTexts ["title"]) fun s => s.get "title") (.text ""))

/-- A page that consists of such a list, which gets the title if there is one. -/
def feedPage : Template :=
  .hole "" (.component ⟨"feed", "feed"⟩ (fun _ => .ok "feed") fun s =>
    .ok ((s.get "title").toOption.toList.map fun v => ("title", v))) (.text "")

def feedHost : Host := ⟨fun _ => Kind.ofTemplate titledFeed, {}⟩

/-- Put a post into the list. -/
def addPost : Command := .changeStream "posts" (.append (.obj [("id", .str "1")]))

/-- A view of the page with a post that waits, and without a title. -/
def untitledFeed : View :=
  (((ofTemplate feedHost feedPage).exec addPost).map Prod.snd).getD (ofTemplate feedHost feedPage)

/-- The same view with a title. -/
def newsFeed : View := untitledFeed.writeAssigns (·.write (.set "title" (.str "news")))

theorem reachable_untitledFeed : Reachable feedHost feedPage untitledFeed :=
  have hexec : (ofTemplate feedHost feedPage).exec addPost = some (.done, untitledFeed) := rfl
  .step .start hexec

/-- With a title, the list is drawn and nothing is lost. -/
theorem newsFeed_delivered :
    ∃ outcome v' s, newsFeed.render 2 = some (.ok outcome, v') ∧
      newsFeed.streams.get? "posts" = some s ∧ s.isWaiting = true ∧
      ((v'.streams.get? "posts" = some s ∨
          outcome.message.edits.filter (·.number = s.number) = [(s.plan "posts").flush.edits]) ↔
        ¬newsFeed.Loses 2 outcome.message.gone "posts") := by
  have hexec : untitledFeed.exec (.write (.set "title" (.str "news"))) = some (.done, newsFeed) :=
    rfl
  have hreach : Reachable feedHost feedPage newsFeed := .step reachable_untitledFeed hexec
  have hgood : (newsFeed.render 2).any (fun x => x.1.isOk) = true := by decide +kernel
  have hwaits : (newsFeed.streams.get? "posts").any Stream.isWaiting = true := by decide +kernel
  obtain ⟨s, hs, hwait⟩ := (Option.any_eq_true ..).mp hwaits
  obtain ⟨⟨_ | outcome, v'⟩, hrender, hok⟩ := (Option.any_eq_true ..).mp hgood
  · cases hok
  · exact ⟨outcome, v', s, hrender, hs, hwait, delivered_iff hreach hrender hs hwait⟩

/-- Without a title, the list fails after the post was taken: the queue is cleared, and the client
is told nothing. -/
theorem untitledFeed_loses :
    ∃ outcome v' s, Reachable feedHost feedPage untitledFeed ∧
      untitledFeed.render 2 = some (.ok outcome, v') ∧
      untitledFeed.streams.get? "posts" = some s ∧ s.isWaiting = true ∧
      v'.streams.get? "posts" ≠ some s ∧ outcome.message.edits = [] := by
  have hgood : (untitledFeed.render 2).any (fun x =>
      x.1.toOption.any (·.message.edits.isEmpty) &&
        !(x.2.streams.get? "posts").any Stream.isWaiting) = true := by decide +kernel
  have hwaits : (untitledFeed.streams.get? "posts").any Stream.isWaiting = true := by
    decide +kernel
  obtain ⟨s, hs, hwait⟩ := (Option.any_eq_true ..).mp hwaits
  obtain ⟨⟨_ | outcome, v'⟩, hrender, hlost⟩ := (Option.any_eq_true ..).mp hgood
  · cases hlost
  · obtain ⟨hempty, hcleared⟩ := Bool.and_eq_true_iff.mp hlost
    refine ⟨outcome, v', s, reachable_untitledFeed, hrender, hs, hwait, fun hsame => ?_,
      List.isEmpty_iff.mp hempty⟩
    rw [hsame, Option.any_some, hwait] at hcleared
    cases hcleared

end View

end ViewSync
