import ViewSync.Proofs.Roster.Closing
import ViewSync.Proofs.View.Ordered

/-!
# What a pass keeps

A component that a pass has seen stays, under its handle and with the last tree that it was rendered
to, whether its last rendering went well or not. With it stays what its tree refers to, and what the
trees of these refer to, as long as none of them was drawn in the pass: all of that is seen along
with it. But a component that is drawn and fails is seen alone. What its tree refers to then stays
only if something else has seen it, such as a hole before the one that failed.
-/

namespace ViewSync.View

open Roster

/-- What is under a component: itself, and what the trees refer to of live components under it that
were not drawn in the pass. -/
inductive Under (v : View) (drawn : List Drawing) (h : Handle) : Handle → Prop where
  | self : Under v drawn h h
  | step {k k' : Handle} {c : Component} {t : Tree} : Under v drawn h k →
      (∀ d ∈ drawn, d.handle ≠ k) → v.roster.get? k = some c → c.retired = false →
      c.tree = some t → k' ∈ t.handles → Under v drawn h k'

section Account

variable {S : Shape → Prop} {v : View} {fuel : Nat} {done : Rendering} {p p₁ p₂ : Pass}
variable {root : Tree} {rs : Refs} {fs : List (String × Stream.Flush)}
variable {former : FormerTrees} {h k : Handle} {c : Component} {t : Tree}
variable (ha : Account S v fuel done p root rs fs p₁ p₂ former)
include ha

/-- **What is under a component that was seen was seen as well.** -/
theorem Account.seen_under (hrest : v.roster.Resting) (htidy : Tidy none [] v.roster)
    (hseen : h ∈ p₂.roster.seen) (hunder : v.Under (v.drawings fuel) h k)
    (hc : v.roster.get? k = some c) (hlive : c.retired = false) : k ∈ p₂.roster.seen := by
  induction hunder generalizing c with
  | self => exact hseen
  | @step j k d u hunder hundrawn hd hdlive hu hin ih =>
      obtain ⟨d', hd', -, hret⟩ := ha.record_drained hrest hd
      have hlast : lastDrawn (v.drawings fuel) j = none := by
        cases hlast : lastDrawn (v.drawings fuel) j with
        | none => rfl
        | some w =>
            obtain ⟨e, he, heq, -⟩ := lastDrawn_mem hlast
            exact absurd heq (hundrawn e he)
      have hu' : d'.tree = some u := by
        rw [← tree?_of_get? hd', (ha.tree?_drained j).1, hlast, tree?_of_get? hd, hu]
        rfl
      rcases (ha.tidy hrest htidy).covered j d' u hd' (hret.trans hdlive) hu' (ih hd hdlive)
        with hqueue | htried | hall
      · rw [ha.drained] at hqueue
        cases hqueue
      · obtain ⟨e, he, heq⟩ := List.mem_map.mp htried
        exact absurd heq (hundrawn e he)
      · -- what is live was not retired
        obtain ⟨c', hc', -, hret'⟩ := ha.record_drained hrest hc
        refine (hall k hin).resolve_right ?_
        exact (ha.redrawn₂.arena.not_retired_iff hc').mpr (hret'.trans hlive)

end Account

/-- The client holds the stream entry that a component is in, if it is in one. -/
def InEntryHeld (p : Pass) (s : Streams) (k : Handle) : Prop :=
  ∀ d e, p.roster.get? k = some d → d.owner = some e → s.holds e = true

/-- **What a pass has seen is kept, with what is under it**: a component that had a tree keeps its
handle, and has the last tree that it was rendered to. -/
theorem kept_of_seen {host : Host} {root : Template} {v v' : View} {fuel : Nat}
    {outcome : Outcome} {done : Rendering} {p : Pass} {h k : Handle} {c : Component} {t : Tree}
    (hv : Reachable host root v) (hr : v.render fuel = some (.ok outcome, v'))
    (hall : v.renderAll fuel v.opened = some (.ok done, p)) (hseen : h ∈ p.roster.seen)
    (hunder : v.Under (v.drawings fuel) h k) (hc : v.roster.get? k = some c)
    (hlive : c.retired = false) (htree : c.tree = some t) (hheld : InEntryHeld p v'.streams k) :
    v'.roster.handle? c.id = some k ∧ k ∉ outcome.message.gone ∧
      v'.roster.tree? k =
        some (((lastDrawn (v.drawings fuel) k).map (Tree.blank p.roster.stillborn)).getD t) := by
  have hstanding := standing_reachable hv
  have hrest := hstanding.resting
  obtain ⟨done', p', hall', rfl, rfl⟩ := render_ok hr
  obtain ⟨hdone, rfl⟩ := Prod.mk.inj (Option.some.inj (hall'.symm.trans hall))
  obtain rfl := Except.ok.inj hdone
  obtain ⟨page, rs, fs, p₁, p₂, former, ha⟩ := hstanding.account hall
  have hborn : k ∉ p₂.roster.stillborn := by
    intro hin
    have hnone := ha.redrawn₂.stillborn k hin
    rw [tree?_of_get? hc, htree] at hnone
    cases hnone
  have hdropped := mem_seen_drop_all p₂.roster.stillborn p₂.roster
  have hseen₂ : k ∈ p₂.roster.seen :=
    ha.seen_under hrest (tidy_reachable hv) ((hdropped h).1 (ha.seen ▸ hseen)) hunder hc hlive
  have hseen' : k ∈ p'.roster.seen := ha.seen ▸ (hdropped k).2 hseen₂ hborn
  -- the record is there in the end, and does not have to leave
  obtain ⟨c₂, hc₂, hid₂, hret₂⟩ := ha.record_drained hrest hc
  obtain ⟨d, hd, hid, hret, hdtree⟩ := ha.record_final hc₂ hborn
  have harena := arena_renderAll hrest hall
  have hstays := leaves_of_seen harena hd hseen' fun e he => hheld d e hd he
  obtain ⟨hhandle, hgone, hfinal⟩ :=
    kept_of_stays harena hd ((hret.trans hret₂).trans hlive) hstays
  rw [hid, hid₂] at hhandle
  refine ⟨hhandle, hgone, hfinal.trans ?_⟩
  rw [tree?_of_get? hd, hdtree, tree?_of_get? hc, htree]
  cases lastDrawn (v.drawings fuel) k <;> rfl

/-- In a pass that goes well, a component fails that had a tree before, and is still referred to. -/
structure Fails (v : View) (fuel : Nat) (h : Handle) (c : Component) (t : Tree)
    (outcome : Outcome) (v' : View) (done : Rendering) (p : Pass) : Prop where
  /-- The render goes well. -/
  render : v.render fuel = some (.ok outcome, v')
  /-- This is its pass. -/
  pass : v.renderAll fuel v.opened = some (.ok done, p)
  /-- The component has a record. -/
  record : v.roster.get? h = some c
  /-- It is live. -/
  live : c.retired = false
  /-- It has a tree. -/
  tree : c.tree = some t
  /-- It is drawn in the pass, and fails. -/
  failed : ∃ d ∈ v.drawings fuel, d.handle = h ∧ d.result.toOption = none
  /-- It is referred to in the pass. -/
  seen : h ∈ p.roster.seen

/-- **What is left of a component that fails.** It keeps its handle, and has the last tree that it
was rendered to. Of what this tree refers to, all that the pass has seen stays as well, with what is
under it. -/
theorem kept_of_fails {host : Host} {root : Template} {v v' : View} {fuel : Nat}
    {outcome : Outcome} {done : Rendering} {p : Pass} {h : Handle} {c : Component} {t u : Tree}
    (hv : Reachable host root v) (hf : v.Fails fuel h c t outcome v' done p)
    (hheld : InEntryHeld p v'.streams h)
    (hu : ((lastDrawn (v.drawings fuel) h).map (Tree.blank p.roster.stillborn)).getD t = u) :
    (v'.roster.handle? c.id = some h ∧ h ∉ outcome.message.gone ∧ v'.roster.tree? h = some u) ∧
      ∀ j ∈ u.handles, j ∈ p.roster.seen → ∀ k d s, v.Under (v.drawings fuel) j k →
        v.roster.get? k = some d → d.retired = false → d.tree = some s →
        InEntryHeld p v'.streams k →
        v'.roster.handle? d.id = some k ∧ k ∉ outcome.message.gone := by
  refine ⟨?_, fun j _ hj k d s hunder hd hlive hs hheld => ?_⟩
  · rw [← hu]
    exact kept_of_seen hv hf.render hf.pass hf.seen .self hf.record hf.live hf.tree hheld
  · have hkept := kept_of_seen hv hf.render hf.pass hj hunder hd hlive hs hheld
    exact ⟨hkept.1, hkept.2.1⟩

/-- A panel that fails once it is broken, with a component before that and one behind. -/
def shakyPanel : Template :=
  .hole "<div>" (.component ⟨"label", "label"⟩ (fun _ => .ok "first") fun _ => .ok [])
    (.hole "" (.value (Reads.ofTexts ["broken"]) fun s => (s.get "broken").bind fun v =>
        if v.same (.bool true) then .error (.failed "broken") else .ok v)
      (.hole "" (.component ⟨"label", "label"⟩ (fun _ => .ok "last") fun _ => .ok [])
        (.text "</div>")))

/-- A page that consists of such a panel. -/
def shakyPage : Template :=
  .hole "" (.component ⟨"panel", "panel"⟩ (fun _ => .ok "panel") fun s =>
    (s.get "broken").map fun v => [("broken", v)]) (.text "")

def shakyHost : Host :=
  ⟨fun key => Kind.ofTemplate (if key = "panel" then shakyPanel else .text "<i></i>"), {}⟩

/-- Draw the page, and break the panel afterwards. -/
def breakPanel : List Command :=
  [.write (.set "broken" (.bool false)), .render 3, .write (.set "broken" (.bool true))]

/-- The panel fails, which has handle 0. The component before the failure, with handle 1, is seen,
and the client is told that the one behind it, with handle 2, is gone. -/
theorem breakPanel_fails : ∃ (v : View) (c d : Component) (t s : Tree) (outcome : Outcome)
    (v' : View) (done : Rendering) (p : Pass), Reachable shakyHost shakyPage v ∧
    v.Fails 3 0 c t outcome v' done p ∧ lastDrawn (v.drawings 3) 0 = none ∧
    (∀ k, InEntryHeld p v'.streams k) ∧ t.handles = [1, 2] ∧
    (1 ∈ p.roster.seen ∧ v.roster.get? 1 = some d ∧ d.retired = false ∧ d.tree = some s) ∧
    v.roster.handle? "last" = some 2 ∧ 2 ∈ outcome.message.gone := by
  have hgood : ((ofTemplate shakyHost shakyPage).run breakPanel).any (fun x =>
      (x.2.roster.get? 0).any (fun c => !c.retired && c.tree.any (·.handles = [1, 2])) &&
      ((x.2.roster.get? 1).any (fun d => !d.retired && d.tree.isSome) &&
      ((x.2.drawings 3).any (fun d => d.handle = 0 && d.result.toOption.isNone) &&
      ((lastDrawn (x.2.drawings 3) 0).isNone &&
      (x.2.roster.handle? "last" = some 2 &&
      ((x.2.renderAll 3 x.2.opened).any (fun y => y.1.isOk && (0 ∈ y.2.roster.seen &&
        (1 ∈ y.2.roster.seen && y.2.roster.slots.all (·.all (·.owner.isNone))))) &&
      (x.2.render 3).any fun z => z.1.toOption.any (2 ∈ ·.message.gone))))))) = true := by
    decide +kernel
  obtain ⟨⟨answers, v⟩, hrun, hgood⟩ := (Option.any_eq_true ..).mp hgood
  simp only [Bool.and_eq_true, decide_eq_true_eq, Option.any_eq_true, Option.isNone_iff_eq_none,
    Option.isSome_iff_exists, List.any_eq_true, Bool.not_eq_true'] at hgood
  obtain ⟨⟨c, hc, hlive, t, ht, hhandles⟩, ⟨d, hd, hdlive, s, hs⟩, ⟨e, he, heh, hfailed⟩, hlast,
    hid, ⟨⟨result, p⟩, hall, hok, hseen, hseen', howners⟩,
    ⟨⟨answer, v'⟩, hr, outcome, ho, hgone⟩⟩ := hgood
  cases result with
  | error e => cases hok
  | ok done =>
      cases answer with
      | error e => cases ho
      | ok o =>
          obtain rfl : o = outcome := Option.some.inj ho
          refine ⟨v, c, d, t, s, o, v', done, p, Reachable.start.run hrun,
            ⟨hr, hall, hc, hlive, ht, ⟨e, he, heh, hfailed⟩, hseen⟩, hlast,
            fun k x entry hx howner => ?_, hhandles, ⟨hseen', hd, hdlive, hs⟩, hid, hgone⟩
          -- no component is in a stream entry
          have hslot := List.mem_of_getElem? (get?_eq_some_iff.mp hx)
          have hnone := List.all_eq_true.mp howners _ hslot
          rw [Option.all_some, howner] at hnone
          cases hnone

/-- The panel keeps its tree, and with it the component that comes before the failure. -/
theorem breakPanel_kept : ∃ (v : View) (c d : Component) (t : Tree) (outcome : Outcome)
    (v' : View) (done : Rendering) (p : Pass), v.Fails 3 0 c t outcome v' done p ∧
    (v'.roster.handle? c.id = some 0 ∧ 0 ∉ outcome.message.gone ∧ v'.roster.tree? 0 = some t) ∧
    1 ∈ t.handles ∧ v'.roster.handle? d.id = some 1 ∧ 1 ∉ outcome.message.gone := by
  obtain ⟨v, c, d, t, s, outcome, v', done, p, hv, hf, hlast, hheld, hhandles,
    ⟨hseen, hd, hdlive, hs⟩, -⟩ := breakPanel_fails
  have hin : 1 ∈ t.handles := by simp [hhandles]
  obtain ⟨hkept, hunder⟩ := kept_of_fails (u := t) hv hf (hheld 0) (by rw [hlast]; rfl)
  exact ⟨v, c, d, t, outcome, v', done, p, hf, hkept, hin,
    hunder 1 hin hseen 1 d s .self hd hdlive hs (hheld 1)⟩

/-- The component behind the failure was live and in the tree that the panel keeps, and the client
is told that it is gone. -/
theorem breakPanel_removes : ∃ (v : View) (c : Component) (t : Tree) (outcome : Outcome)
    (v' : View) (done : Rendering) (p : Pass), Reachable shakyHost shakyPage v ∧
    v.Fails 3 0 c t outcome v' done p ∧ lastDrawn (v.drawings 3) 0 = none ∧ 2 ∈ t.handles ∧
    v.roster.handle? "last" = some 2 ∧ 2 ∈ outcome.message.gone := by
  obtain ⟨v, c, d, t, s, outcome, v', done, p, hv, hf, hlast, -, hhandles, -, hid, hgone⟩ :=
    breakPanel_fails
  exact ⟨v, c, t, outcome, v', done, p, hv, hf, hlast, by simp [hhandles], hid, hgone⟩

end ViewSync.View
