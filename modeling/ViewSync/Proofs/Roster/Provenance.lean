import Mathlib.Data.List.Induction
import ViewSync.Proofs.Roster.Sighted
import ViewSync.Proofs.Roster.Worklist

/-!
# Where what is seen comes from

As far as references go, a pass is a row of events: components are rendered, and what is being
rendered refers to components. So it can be told of every handle that a pass has seen how it came to
that. It was seen before the pass, or was referred to; or else it was come upon by following, from a
component that was referred to and need not be rendered anew. The way there leads through trees from
before the pass only. A tree that the pass has drawn does not lead on, since all that it refers to
was seen when it was drawn.

That is so only in a pass without failures, in which nothing is stillborn.
-/

namespace ViewSync.Roster

open ViewSync.Pass

variable {kinds : Kinds} {r₀ r r' : Roster}

/-! ## What one reference sees -/

/-- What a reference sees and queues besides what was seen and queued before. -/
inductive Sees (r : Roster) : Except Error (Handle × Bool) → Roster → Prop where
  | nothing {e : Error} {r' : Roster} : r'.seen = r.seen → r'.queue = r.queue →
      Sees r (.error e) r'
  /-- The component that the reference is answered with, and all that this leads to if it need not
  be rendered anew. -/
  | component {h : Handle} {changed : Bool} {r' : Roster} :
      (∀ k ∈ r'.seen, k ∈ r.seen ∨ k = h ∨
        changed = false ∧ Leads (fun m t => m ∈ r'.seen ∧ m ∉ r.seen ∧ r.tree? m = some t) h k) →
      (∀ k ∈ r'.queue, k ∈ r.queue ∨ k = h) → Sees r (.ok (h, changed)) r'

theorem sees_refer (kinds : Kinds) {now : Option (Handle × Component)} (hu : Underway now r)
    (id : String) (kind : KindRef) (props : Fields) (owner : Option StreamEntry) :
    Sees r (r.refer kinds id kind props owner).1 (r.refer kinds id kind props owner).2 := by
  have hspec := refer_spec kinds r id kind props owner
  generalize (r.refer kinds id kind props owner).1 = x at hspec ⊢
  generalize (r.refer kinds id kind props owner).2 = r' at hspec ⊢
  have hself {h : Handle} {s : Roster} {P : Handle → Prop} (hseen : s.seen = r.seen) :
      ∀ k ∈ (s.see h).seen, k ∈ r.seen ∨ k = h ∨ P k := by
    intro k hk
    rcases KeySet.mem_insert.mp hk with heq | hk
    · exact .inr (.inl heq)
    · exact .inl (hseen ▸ hk)
  cases hspec with
  | refused e => exact .nothing rfl rfl
  | failed => exact .nothing rfl rfl
  | stillborn => exact .component (fun _ hk => .inl hk) fun _ hk => .inl hk
  | inside => exact .component (hself rfl) fun _ hk => .inl hk
  | @stale h c =>
      refine .component ?_ fun k hk => ?_
      · rw [seen_schedule]
        exact hself rfl
      · have hqueue := mem_queue_schedule hk
        exact hqueue
  | @unchanged h c _ _ hc _ =>
      have hover : Edit kinds (fun _ => True) r (r.handOver kinds h c props owner) :=
        .rewrite owner r.seen r.queue hc (fun _ _ => trivial) fun _ hk => hk
      have htree := (Grows.of_edit hu.spare_empty hover).tree?
      refine .component (fun k hk => ?_) fun _ hk => .inl hk
      refine ((mem_seen_followAll _ _ k).mp hk).imp_right fun ⟨b, hb, hl⟩ => .inr ⟨rfl, ?_⟩
      obtain rfl := List.mem_singleton.mp hb
      refine hl.along.mono fun m t ⟨hm, hout, ht⟩ => ⟨?_, hout, (htree m).symm.trans ht⟩
      exact (mem_seen_followAll _ _ m).mpr (.inr ⟨b, List.mem_cons_self, hm⟩)
  | @created a b =>
      refine .component ?_ fun k hk => ?_
      · rw [seen_schedule]
        exact hself (by rw [create_rest])
      · refine (mem_queue_schedule hk).imp_left fun hk => ?_
        rw [see, create_rest] at hk
        exact hk

/-! ## What happens in a pass -/

/-- What happens in a pass, as far as references go. -/
inductive PassEvent where
  /-- A component is rendered. -/
  | draw (h : Handle)
  /-- What is being rendered refers to a component, which is to be rendered anew or not. -/
  | refer (h : Handle) (changed : Bool)
  deriving DecidableEq

/-- The component that it happens to. -/
def PassEvent.handle : PassEvent → Handle
  | .draw h => h
  | .refer h _ => h

/-- The references in what is being rendered, one after the other. -/
def PassEvent.ofRefs (rs : Refs) : List PassEvent := rs.map fun (h, changed) => .refer h changed

/-- A component is rendered, and refers to what is in its tree. -/
def Drawing.events (d : Drawing) : List PassEvent :=
  .draw d.handle :: d.result.toOption.elim [] fun t => PassEvent.ofRefs t.refs

/-- By some events of a pass nothing has happened to a component, which nobody had seen before the
pass either, and which has its tree from there. -/
structure Untouched (r₀ : Roster) (es : List PassEvent) (h : Handle) (t : Tree) : Prop where
  /-- It had not been seen. -/
  unseen : h ∉ r₀.seen
  /-- It was not rendered, and nothing referred to it. -/
  unmet : h ∉ es.map PassEvent.handle
  /-- It had this tree. -/
  tree : r₀.tree? h = some t

/-- How a handle came to be seen by some events of a pass. -/
inductive Found (r₀ : Roster) (seen : KeySet Handle) (es : List PassEvent) (k : Handle) : Prop where
  | before : k ∈ r₀.seen → Found r₀ seen es k
  | referred {changed : Bool} : .refer k changed ∈ es → Found r₀ seen es k
  /-- A component that was referred to, and was not to be rendered anew, led there through trees
  from before the pass. -/
  | followed {earlier : List PassEvent} {b : Handle} : earlier ++ [.refer b false] <+: es →
      Leads (fun h t => h ∈ seen ∧ Untouched r₀ earlier h t) b k → Found r₀ seen es k

variable {es es' : List PassEvent} {h k : Handle}

theorem mem_ofRefs {rs : Refs} {changed : Bool} :
    .refer h changed ∈ PassEvent.ofRefs rs ↔ (h, changed) ∈ rs := by
  simp [PassEvent.ofRefs]

theorem Found.mono {seen seen' : KeySet Handle} (hk : Found r₀ seen es k)
    (hseen : ∀ h ∈ seen, h ∈ seen') (hes : es <+: es') : Found r₀ seen' es' k := by
  cases hk with
  | before hk => exact .before hk
  | referred hk => exact .referred (hes.subset hk)
  | followed hearlier hl =>
      exact .followed (hearlier.trans hes) (hl.mono fun h t ht => ⟨hseen h ht.1, ht.2⟩)

/-! ## The books of a pass -/

/-- After some events of a pass, what has been seen and what is queued is explained by them. -/
structure Explained (r₀ : Roster) (es : List PassEvent) (r : Roster) : Prop where
  /-- What was seen before the pass is still seen. -/
  before : ∀ k ∈ r₀.seen, k ∈ r.seen
  /-- What was referred to is seen. -/
  referred : ∀ k changed, .refer k changed ∈ es → k ∈ r.seen
  /-- What a component refers to is seen, once the component was rendered. -/
  drawn : ∀ h t, .draw h ∈ es → r.tree? h = some t → ∀ k ∈ t.handles, k ∈ r.seen
  /-- Other components have their trees from before. -/
  undrawn : ∀ h t, .draw h ∉ es → r.tree? h = some t → r₀.tree? h = some t
  /-- Whatever is seen was found. -/
  found : ∀ k ∈ r.seen, Found r₀ r.seen es k
  /-- Whatever is queued was so before, or was referred to. -/
  queue : ∀ k ∈ r.queue, k ∈ r₀.queue ∨ ∃ changed, .refer k changed ∈ es
  /-- A component is rendered because it was queued before the pass, or was referred to. -/
  turn : ∀ earlier h, earlier ++ [.draw h] <+: es →
    h ∈ r₀.queue ∨ ∃ changed, .refer h changed ∈ earlier

theorem explained_start (hseen : r.seen = r₀.seen) (htree : ∀ h, r.tree? h = r₀.tree? h)
    (hqueue : r.queue = r₀.queue) : Explained r₀ [] r where
  before k hk := hseen ▸ hk
  referred _ _ hk := by cases hk
  drawn _ _ hh := by cases hh
  undrawn h t _ ht := (htree h).symm.trans ht
  found k hk := .before (hseen ▸ hk)
  queue k hk := .inl (hqueue ▸ hk)
  turn earlier h hpre := by
    have hlen := hpre.length_le
    simp at hlen

/-- A list that starts with an event of one kind and goes on for one more of another. -/
theorem prefix_of_prefix_concat {e e' : PassEvent} (hne : e ≠ e') {earlier : List PassEvent}
    (hpre : earlier ++ [e] <+: es ++ [e']) : earlier ++ [e] <+: es := by
  refine (List.prefix_concat_iff.mp hpre).resolve_left fun heq => hne ?_
  exact List.singleton_inj.mp (List.append_inj_right' heq rfl)

namespace Explained

/-- Nothing happens that bears on references. -/
theorem congr (he : Explained r₀ es r) (htree : ∀ h, r'.tree? h = r.tree? h)
    (hseen : r'.seen = r.seen) (hqueue : ∀ k ∈ r'.queue, k ∈ r.queue) : Explained r₀ es r' where
  before k hk := hseen ▸ he.before k hk
  referred k changed hk := hseen ▸ he.referred k changed hk
  drawn h t hh ht k hk := hseen ▸ he.drawn h t hh ((htree h).symm.trans ht) k hk
  undrawn h t hh ht := he.undrawn h t hh ((htree h).symm.trans ht)
  found k hk := hseen ▸ he.found k (hseen ▸ hk)
  queue k hk := he.queue k (hqueue k hk)
  turn := he.turn

/-- A component that has not been seen leads on only if nothing has happened to it. -/
theorem untouched (he : Explained r₀ es r) {t : Tree} (hh : h ∉ r.seen) (ht : r.tree? h = some t)
    (hin : k ∈ t.handles) (hk : k ∉ r.seen) : Untouched r₀ es h t := by
  have hdraw : .draw h ∉ es := fun hdraw => hk (he.drawn h t hdraw ht k hin)
  refine ⟨fun hold => hh (he.before h hold), fun hmet => ?_, he.undrawn h t hdraw ht⟩
  obtain ⟨e, hin, rfl⟩ := List.mem_map.mp hmet
  cases e with
  | draw h => exact hdraw hin
  | refer h changed => exact hh (he.referred h changed hin)

/-- A component that was referred to is seen, and what it leads to where it is followed. -/
theorem concat_refer (he : Explained r₀ es r) {changed : Bool} (htree : ∀ k, r'.tree? k = r.tree? k)
    (hsub : ∀ k ∈ r.seen, k ∈ r'.seen) (hh : h ∈ r'.seen)
    (hnew : ∀ k ∈ r'.seen, k ∈ r.seen ∨ k = h ∨ changed = false ∧
      Leads (fun m t => m ∈ r'.seen ∧ m ∉ r.seen ∧ r.tree? m = some t) h k)
    (hqueue : ∀ k ∈ r'.queue, k ∈ r.queue ∨ k = h) :
    Explained r₀ (es ++ [.refer h changed]) r' where
  before k hk := hsub k (he.before k hk)
  referred k changed' hk := by
    rcases List.mem_append.mp hk with hk | hk
    · exact hsub k (he.referred k changed' hk)
    · obtain ⟨rfl, -⟩ := PassEvent.refer.inj (List.mem_singleton.mp hk)
      exact hh
  drawn m t hm ht k hk := by
    refine hsub k (he.drawn m t ?_ ((htree m).symm.trans ht) k hk)
    simpa using hm
  undrawn m t hm ht := he.undrawn m t (by simpa using hm) ((htree m).symm.trans ht)
  found k hk := by
    have hes : es <+: es ++ [.refer h changed] := List.prefix_append _ _
    by_cases hold : k ∈ r.seen
    · exact (he.found k hold).mono hsub hes
    rcases (hnew k hk).resolve_left hold with rfl | ⟨rfl, hl⟩
    · exact .referred (List.mem_append_right es List.mem_cons_self)
    · have hall : es ++ [.refer h false] <+: es ++ [.refer h false] := List.prefix_refl _
      refine .followed hall ?_
      -- what leads on to something unseen was left alone so far
      clear hk
      induction hl with
      | self => exact .self
      | @step m k t _ hm hin ih =>
          exact (ih hm.2.1).step ⟨hm.1, he.untouched hm.2.1 hm.2.2 hin hold⟩ hin
  queue k hk := by
    rcases hqueue k hk with hk | rfl
    · exact (he.queue k hk).imp_right (Exists.imp fun _ hin =>
        List.mem_append_left _ hin)
    · exact .inr ⟨changed, List.mem_append_right es List.mem_cons_self⟩
  turn earlier m hpre := he.turn earlier m (prefix_of_prefix_concat (by simp) hpre)

/-- A reference that is answered. -/
theorem refer {now : Option (Handle × Component)} (hu : Underway now r) (he : Explained r₀ es r)
    (hborn : r.stillborn = []) {id : String} {kind : KindRef} {props : Fields}
    {owner : Option StreamEntry} {changed : Bool}
    (hok : (r.refer kinds id kind props owner).1 = .ok (h, changed)) :
    Explained r₀ (es ++ [.refer h changed]) (r.refer kinds id kind props owner).2 := by
  have hedit : Edit kinds (fun _ => True) r (r.refer kinds id kind props owner).2 :=
    edit_refer r id kind owner fun _ _ => trivial
  obtain ⟨hsub, hanswer⟩ := mem_seen_refer kinds r id kind props owner
  have hsees := sees_refer kinds hu id kind props owner
  rw [hok] at hsees
  cases hsees with
  | component hseen hqueue =>
      exact he.concat_refer (Grows.of_edit hu.spare_empty hedit).tree? hsub
        (hanswer h changed hok (hborn ▸ List.not_mem_nil)) hseen hqueue

/-- A reference that fails. -/
theorem refuse {now : Option (Handle × Component)} (hu : Underway now r) (he : Explained r₀ es r)
    {id : String} {kind : KindRef} {props : Fields} {owner : Option StreamEntry} {e : Error}
    (herr : (r.refer kinds id kind props owner).1 = .error e) :
    Explained r₀ es (r.refer kinds id kind props owner).2 := by
  have hedit : Edit kinds (fun _ => True) r (r.refer kinds id kind props owner).2 :=
    edit_refer r id kind owner fun _ _ => trivial
  have hsees := sees_refer kinds hu id kind props owner
  rw [herr] at hsees
  cases hsees with
  | nothing hseen hqueue =>
      exact he.congr (Grows.of_edit hu.spare_empty hedit).tree? hseen fun k hk => hqueue ▸ hk

variable {p q : Pass} {rs : Refs} {fs : List (String × Stream.Flush)}

/-- **Along a course, what is seen is explained by its references.** -/
theorem course {now : Option (Handle × Component)} (hcourse : Course kinds p rs fs q)
    (hu : Underway now p.roster) (hborn : p.roster.stillborn = [])
    (he : Explained r₀ es p.roster) : Explained r₀ (es ++ PassEvent.ofRefs rs) q.roster := by
  induction hcourse generalizing es with
  | done p =>
      rw [PassEvent.ofRefs, List.map_nil, List.append_nil]
      exact he
  | @refer p q rs fs id kind props owner h changed hok _ ih =>
      have hrest := ih (hu.refer kinds id kind props owner)
        ((stillborn_refer id kind props owner).trans hborn) (he.refer hu hborn hok)
      rw [List.append_assoc] at hrest
      exact hrest
  | @refuse p q rs fs id kind props owner e herr _ ih =>
      exact ih (hu.refer kinds id kind props owner)
        ((stillborn_refer id kind props owner).trans hborn) (he.refuse hu herr)
  | @draw p q rs fs e _ ih =>
      have hedit : Edit kinds (fun _ => True) p.roster (p.roster.noteDrawn e) :=
        edit_noteDrawn p.roster e
      obtain ⟨hseen, hstill, hqueue⟩ := noteDrawn_rest p.roster e
      exact ih (hu.edit hedit) (hstill.trans hborn)
        (he.congr (Grows.of_edit hu.spare_empty hedit).tree? hseen fun k hk => hqueue ▸ hk)
  | take _ _ ih => exact ih hu hborn he
  | note e _ ih => exact ih hu hborn he

end Explained

/-! ## Drawings -/

variable {host : Host} {p q : Pass} {c : Component} {rs : Refs}
variable {fs : List (String × Stream.Flush)} {former : FormerTrees}

/-- A component whose turn it is to be rendered. -/
theorem Draws.explained_begun {result : Except Error Tree}
    (hd : Draws host p h c rs fs q result) (he : Explained r₀ es p.roster) :
    Explained r₀ (es ++ [.draw h]) (begun p h c).roster where
  before := he.before
  referred k changed hk := he.referred k changed (by simpa using hk)
  drawn k t hk ht := by
    obtain ⟨hne, ht⟩ := of_tree?_begun ht
    exact he.drawn k t (by simpa [hne] using hk) ht
  undrawn k t hk ht :=
    he.undrawn k t (fun hin => hk (List.mem_append_left _ hin)) (of_tree?_begun ht).2
  found k hk := (he.found k hk).mono (fun _ hk => hk) (List.prefix_append _ _)
  queue k hk := (he.queue k (List.mem_of_mem_tail hk)).imp_right (Exists.imp fun _ hin =>
    List.mem_append_left _ hin)
  turn earlier k hpre := by
    rcases List.prefix_concat_iff.mp hpre with heq | hpre
    · -- the one event that is new is this component's
      obtain ⟨rfl, hsame⟩ := List.append_inj' heq rfl
      obtain rfl := PassEvent.draw.inj (List.singleton_inj.mp hsame)
      exact he.queue k (List.mem_of_mem_head? hd.next)
    · exact he.turn earlier k hpre

/-- **A drawing that goes well explains what is seen by then.** -/
theorem Draws.explained {t : Tree} (hd : Draws host p h c rs fs q (.ok t)) (hr : p.roster.Arena)
    (hborn : p.roster.stillborn = []) (he : Explained r₀ es p.roster) (taken : List String) :
    Explained r₀ (es ++ Drawing.events ⟨h, .ok t, taken⟩)
      (Roster.settle q h c former (.ok t)).2.2.roster := by
  have hq := Explained.course hd.course (hd.underway hr) hborn (hd.explained_begun he)
  rw [← (hd.tells t rfl).refs, List.append_assoc] at hq
  change Explained r₀ (es ++ Drawing.events ⟨h, .ok t, taken⟩) q.roster at hq
  have hdraw : PassEvent.draw h ∈ es ++ Drawing.events ⟨h, .ok t, taken⟩ :=
    List.mem_append_right es List.mem_cons_self
  obtain ⟨c', -, -, htree, hget⟩ := get?_settle former (hd.lt_slots hr) hd.recovers
  have hcases {k : Handle} {u : Tree}
      (hu : (Roster.settle q h c former (.ok t)).2.2.roster.tree? k = some u) :
      (k = h ∧ u = t) ∨ (k ≠ h ∧ q.roster.tree? k = some u) := by
    rw [tree?, hget] at hu
    by_cases hk : k = h
    · rw [if_pos hk] at hu
      exact .inl ⟨hk, (Option.some.inj (htree.symm.trans hu)).symm⟩
    · rw [if_neg hk] at hu
      exact .inr ⟨hk, hu⟩
  refine { hq with drawn := fun k u hk hu => ?_, undrawn := fun k u hk hu => ?_ }
  · rcases hcases hu with ⟨rfl, rfl⟩ | ⟨-, hu⟩
    · -- its references were answered in this drawing
      intro m hm
      obtain ⟨changed, hm⟩ := Tree.mem_handles_iff.mp hm
      refine hq.referred m changed (List.mem_append_right es (List.mem_cons_of_mem _ ?_))
      exact mem_ofRefs.mpr hm
    · exact hq.drawn k u hk hu
  · rcases hcases hu with ⟨rfl, -⟩ | ⟨-, hu⟩
    · exact absurd hdraw hk
    · exact hq.undrawn k u hk hu

/-- **Where no failure is left in the end, what is seen is explained by the drawings.** -/
theorem Drains.explained {S : Shape → Prop} {r₁ : Roster} {p₀ : Pass} {ds : List Drawing}
    (hS : ∀ key a, S ((host.kinds key).render a).shape) (hp₀ : Redrawn S r₁ none p₀.roster [])
    (hborn : p₀.roster.stillborn = []) (hstart : Explained r₀ es p₀.roster)
    (hd : Drains host p₀ ds p former) (herrors : p.errors = []) :
    Explained r₀ (es ++ ds.flatMap Drawing.events) p.roster := by
  suffices hboth : p.roster.stillborn = [] ∧
      Explained r₀ (es ++ ds.flatMap Drawing.events) p.roster from hboth.2
  revert herrors
  refine hd.induct (P := fun ds p _ => p.errors = [] → p.roster.stillborn = [] ∧
    Explained r₀ (es ++ ds.flatMap Drawing.events) p.roster) hS hp₀ ?_ ?_ ?_
  · rw [List.flatMap_nil, List.append_nil]
    exact fun _ => ⟨hborn, hstart⟩
  · intro ds p former h queue ih hq _ herrors
    obtain ⟨hborn, he⟩ := ih herrors
    exact ⟨hborn, he.congr (fun _ => rfl) rfl fun k hk => hq ▸ List.mem_cons_of_mem h hk⟩
  · intro ds p former h c rs fs q result ih hredrawn hdraw herrors
    obtain ⟨hbefore, t, rfl⟩ := hdraw.flawless herrors
    obtain ⟨hborn, he⟩ := ih hbefore
    rw [List.flatMap_append, List.flatMap_singleton, ← List.append_assoc]
    exact ⟨(hdraw.sighted hborn former).1, hdraw.explained hredrawn.arena hborn he _⟩

/-! ## What is seen leads back to references -/

section Pass

variable {ds : List Drawing} {R : Handle → Prop}
variable (he : Explained r₀ (PassEvent.ofRefs rs ++ ds.flatMap Drawing.events) r)
variable (hpage : ∀ k ∈ rs.map Prod.fst, R k)
variable (hdrawn : ∀ d ∈ ds, d.handle ∈ r₀.queue ∨ R d.handle →
  ∀ t, d.result = .ok t → ∀ k ∈ t.handles, R k)
include he hpage hdrawn

/-- All that is referred to is in a set if all is that the page refers to, and all that the trees of
components refer to that were queued before or are in the set. -/
theorem Explained.mem_of_refer {changed : Bool}
    (hk : .refer k changed ∈ PassEvent.ofRefs rs ++ ds.flatMap Drawing.events) : R k := by
  suffices hall : ∀ earlier, earlier <+: ds → ∀ k changed,
      .refer k changed ∈ PassEvent.ofRefs rs ++ earlier.flatMap Drawing.events → R k from
    hall ds (List.prefix_refl ds) k changed hk
  -- by the drawings: whatever is drawn was queued before, or was referred to earlier
  intro earlier
  induction earlier using List.reverseRecOn with
  | nil =>
      intro _ k changed hk
      rw [List.flatMap_nil, List.append_nil, mem_ofRefs] at hk
      exact hpage k (List.mem_map_of_mem hk)
  | append_singleton earlier d ih =>
      intro hpre k changed hk
      have hbefore : earlier <+: ds := (List.prefix_append _ _).trans hpre
      rw [List.flatMap_append, List.flatMap_singleton, ← List.append_assoc] at hk
      rcases List.mem_append.mp hk with hk | hk
      · exact ih hbefore k changed hk
      · have hevents :
            PassEvent.ofRefs rs ++ earlier.flatMap Drawing.events ++ [.draw d.handle] <+:
              PassEvent.ofRefs rs ++ ds.flatMap Drawing.events := by
          obtain ⟨later, rfl⟩ := hpre
          simp [Drawing.events]
        have hturn := (he.turn _ _ hevents).imp_right fun ⟨changed, hin⟩ =>
          ih hbefore d.handle changed hin
        have hd : d ∈ ds := hpre.subset (List.mem_append_right _ List.mem_cons_self)
        cases hresult : d.result with
        | error e => simp [Drawing.events, hresult, Except.toOption] at hk
        | ok t =>
            simp only [Drawing.events, hresult, Except.toOption, Option.elim_some,
              List.mem_cons, reduceCtorEq, false_or, mem_ofRefs] at hk
            exact hdrawn d hd hturn t hresult k (Tree.mem_handles_iff.mpr ⟨changed, hk⟩)

/-- All that is seen is in such a set if all is that was seen before the pass, and all that trees
from before the pass refer to on the way from what was referred to and not to be rendered anew. -/
theorem Explained.mem_of_seen (hbefore : ∀ k ∈ r₀.seen, R k)
    (hfollowed : ∀ earlier b,
      earlier ++ [.refer b false] <+: PassEvent.ofRefs rs ++ ds.flatMap Drawing.events →
      ∀ h t, Leads (Untouched r₀ earlier) b h → Untouched r₀ earlier h t → h ∈ r.seen → R h →
      ∀ k ∈ t.handles, R k) : ∀ k ∈ r.seen, R k := by
  intro k hk
  cases he.found k hk with
  | before hk => exact hbefore k hk
  | referred hk => exact he.mem_of_refer hpage hdrawn hk
  | @followed earlier b hpre hl =>
      clear hk
      induction hl with
      | self =>
          have hb : .refer b false ∈ PassEvent.ofRefs rs ++ ds.flatMap Drawing.events :=
            hpre.subset (List.mem_append_right earlier List.mem_cons_self)
          exact he.mem_of_refer hpage hdrawn hb
      | @step h k t hl ht hin ih =>
          have hlead : Leads (Untouched r₀ earlier) b h := hl.mono fun _ _ ht => ht.2
          exact hfollowed earlier b hpre h t hlead ht.2 ht.1 ih k hin

end Pass

end ViewSync.Roster
