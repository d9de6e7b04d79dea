import ViewSync.Proofs.View.Delivery
import ViewSync.Proofs.View.Smooth

/-!
# Streams that are left waiting

A pass clears the queue of a stream when one of the trees that it draws has a hole of the stream,
the page or the tree of a component, even one that is drawn again later. So a stream waits after a
pass only as far as the pass has drawn none of its holes. The page is always drawn, but components
are not: where nothing of a component has changed, its tree stays, and a stream that has its hole
there goes on waiting in full view.
-/

namespace ViewSync

/-- Whether anything is queued for a stream. -/
def Streams.waits (s : Streams) (name : String) : Bool := (s.get? name).any Stream.isWaiting

/-! ## What drawings leave -/

namespace Roster

/-- The streams that have a hole in what was drawn. -/
def Drawing.streams (d : Drawing) : List String := (d.result.toOption.map Tree.streams).getD []

theorem mem_drawing_streams {d : Drawing} {name : String} :
    name ∈ d.streams ↔ ∃ t, d.result = .ok t ∧ name ∈ t.streams := by
  unfold Drawing.streams
  cases d.result <;> simp [Except.toOption]

/-- **Where no failure is left in the end, the drawings leave the flushes of the streams that have
no hole in any of them.** -/
theorem Drains.flushes {host : Host} {p₀ p : Pass} {former : FormerTrees} {S : Shape → Prop}
    {r₀ : Roster} {ds : List Drawing} (hS : ∀ key a, S ((host.kinds key).render a).shape)
    (hp₀ : Redrawn S r₀ none p₀.roster []) (hnamed : p₀.Named) (hd : Drains host p₀ ds p former)
    (herrors : p.errors = []) :
    p.flushes = Pass.without (ds.flatMap Drawing.streams) p₀.flushes := by
  refine hd.smooth (P := fun ds p _ =>
    p.flushes = Pass.without (ds.flatMap Drawing.streams) p₀.flushes) hS hp₀ hnamed
    (Pass.without_nil _).symm (fun ih _ _ => ih) ?_ herrors
  intro ds p former h c rs fs q t acts ih _ _ hacts hrecalls
  have hleft : q.flushes = Pass.without t.streams p.flushes := by
    rw [Tree.streams, hrecalls]
    exact hacts.flushes
  rw [(settle_rest q h c former (.ok t)).1, hleft, ih, List.flatMap_append, Pass.without_append]
  simp [Drawing.streams, Except.toOption]

end Roster

/-! ## What a pass leaves -/

namespace View

open Roster

variable {S : Shape → Prop} {v v' : View} {fuel : Nat} {done : Rendering} {p p₁ p₂ : Pass}
variable {root : Tree} {rs : Refs} {fs : List (String × Stream.Flush)}
variable {former : FormerTrees} {name : String}

/-- What a pass without failures leaves of the flushes. -/
theorem Account.flushes_left (ha : Account S v fuel done p root rs fs p₁ p₂ former)
    (herrors : p.errors = []) (hsent : ∀ t, v.sent = some t → t.Fits) : p.flushes =
      Pass.without (root.streams ++ (v.drawings fuel).flatMap Drawing.streams)
        v.opened.flushes := by
  obtain ⟨acts, hacts, hrecalls⟩ := ha.smooth_root herrors hsent
  have hleft : p₁.flushes = Pass.without root.streams v.opened.flushes := by
    rw [Tree.streams, hrecalls]
    exact hacts.flushes
  rw [ha.flushes, ha.drains.flushes ha.kinds ha.redrawn (hacts.named v.named_opened)
    (ha.errors ▸ herrors), hleft, Pass.without_append]

/-- A stream waits after a pass if it did before, and its flush was left. -/
theorem waits_settle (hv : v.streams.Numbered) (done : Rendering) (p : Pass) (name : String) :
    (v.settle v.streams.plans done p).2.streams.waits name = true ↔
      v.streams.waits name = true ∧ p.flushes.has name = true := by
  unfold Streams.waits
  cases hs : v.streams.get? name with
  | none =>
      rw [streams_settle hv, hs]
      simp
  | some s =>
      cases hwait : s.isWaiting with
      | true =>
          rw [get?_settle_streams hv hs hwait]
          cases p.flushes.has name <;> simp [hwait, Stream.isWaiting_adopt]
      | false =>
          rw [get?_settle_idle hv hs hwait]
          simp [hwait]

/-- **Which streams a pass leaves waiting.** After a pass without failures a stream waits if it did
before and has no hole in any tree that the pass drew. Its holes, if there are any, are then in
components which the pass has not drawn, and which have the trees from before. -/
theorem waits_iff_undrawn {host : Host} {template : Template} {outcome : Outcome} {page : Tree}
    (hv : Reachable host template v) (hr : v.render fuel = some (.ok outcome, v'))
    (herrors : outcome.errors = []) (hpage : v'.sent = some page) :
    (v'.streams.waits name = true ↔ v.streams.waits name = true ∧ name ∉ page.streams ∧
      ∀ d ∈ v.drawings fuel, ∀ t, d.result = .ok t → name ∉ t.streams) ∧
    (v'.streams.waits name = true → ∀ k t, v'.roster.tree? k = some t → name ∈ t.streams →
      v.roster.tree? k = some t ∧ ∀ d ∈ v.drawings fuel, d.handle ≠ k) := by
  have hstanding := standing_reachable hv
  have hrest := hstanding.resting
  have hnumbered := numbered_reachable hv
  obtain ⟨done, p, hall, rfl, rfl⟩ := render_ok hr
  obtain ⟨root, rs, fs, p₁, p₂, former, ha⟩ := hstanding.account hall
  obtain rfl : page = root := (Option.some.inj hpage).symm.trans (ha.root_clean herrors hrest)
  have hwaits : (v.settle v.streams.plans done p).2.streams.waits name = true ↔
      v.streams.waits name = true ∧ name ∉ page.streams ∧
        ∀ d ∈ v.drawings fuel, ∀ t, d.result = .ok t → name ∉ t.streams := by
    have hdrawn : name ∉ (v.drawings fuel).flatMap Drawing.streams ↔
        ∀ d ∈ v.drawings fuel, ∀ t, d.result = .ok t → name ∉ t.streams := by
      simp only [List.mem_flatMap, mem_drawing_streams, not_exists, not_and]
    rw [waits_settle hnumbered, ← hdrawn, ← not_or, ← List.mem_append,
      ha.flushes_left herrors hstanding.sent, Keyed.has, Pass.get?_without]
    refine and_congr_right fun hwait => ?_
    obtain ⟨s, hs, hwait⟩ := (Option.any_eq_true ..).mp hwait
    have hhas := (alone_opened hnumbered hs hwait).2
    rw [Keyed.has] at hhas
    split
    · next hin => exact iff_of_false Bool.false_ne_true (not_not_intro hin)
    · next hout => exact iff_of_true hhas hout
  refine ⟨hwaits, fun hwait k t ht hin => ?_⟩
  obtain ⟨-, -, hundrawn⟩ := hwaits.mp hwait
  rcases ha.tree?_left herrors hrest ht with hlast | ⟨hother, hold⟩
  · obtain ⟨d, hd, -, hresult⟩ := lastDrawn_mem hlast
    exact absurd hin (hundrawn d hd t hresult)
  · exact ⟨hold, hother⟩

/-- A list of posts. -/
def plainFeed : Template :=
  .hole "<ul>" (.stream "posts" "post" (.text "<li></li>")) (.text "</ul>")

/-- Pages with such a list instead of one that has a title. -/
def plainHost : Host := ⟨fun _ => Kind.ofTemplate plainFeed, {}⟩

/-- A post that comes up before the list was drawn is sent along with it. -/
theorem plainFeed_served : ∃ v outcome v' page, Reachable plainHost feedPage v ∧
    v.render 2 = some (.ok outcome, v') ∧ outcome.errors = [] ∧ v'.sent = some page ∧
    v'.streams.waits "posts" = false ∧
    (v'.streams.waits "posts" = true ↔ v.streams.waits "posts" = true ∧ "posts" ∉ page.streams ∧
      ∀ d ∈ v.drawings 2, ∀ t, d.result = .ok t → "posts" ∉ t.streams) := by
  obtain ⟨mounted, v, outcome, v', hv, hr, hclean, htest⟩ :=
    undisturbed_of_run plainHost feedPage [addPost] 2
      (fun _ _ _ w => w.sent.isSome && !w.streams.waits "posts") (by decide +kernel)
  rw [Bool.and_eq_true, Bool.not_eq_true'] at htest
  obtain ⟨page, hpage⟩ := Option.isSome_iff_exists.mp htest.1
  exact ⟨v, outcome, v', page, hv.reachable, hr, hclean, hpage, htest.2,
    (waits_iff_undrawn hv.reachable hr hclean hpage).1⟩

/-- A stream has a hole in the output: in the page, or in a component that the page leads to. -/
def Displays (v : View) (name : String) : Prop :=
  ∃ page, v.sent = some page ∧ (name ∈ page.streams ∨ ∃ b ∈ page.handles, ∃ k t,
    Leads (v.roster.tree? · = some ·) b k ∧ v.roster.tree? k = some t ∧ name ∈ t.streams)

/-- A post that comes up once the list was drawn is left waiting by a render that goes well, though
the list is there for it. -/
theorem plainFeed_waits : ∃ mounted v outcome v', Undisturbed plainHost feedPage mounted v ∧
    v.render 2 = some (.ok outcome, v') ∧ outcome.errors = [] ∧ v'.Displays "posts" ∧
    v'.streams.waits "posts" = true := by
  obtain ⟨mounted, v, outcome, v', hv, hr, hclean, htest⟩ :=
    undisturbed_of_run plainHost feedPage [.render 2, addPost] 2
      (fun _ _ _ w => w.sent.any (fun page => decide (0 ∈ Tree.handles page)) &&
        ((w.roster.tree? 0).any (fun t => decide ("posts" ∈ Tree.streams t)) &&
          w.streams.waits "posts"))
      (by decide +kernel)
  simp only [Bool.and_eq_true, Option.any_eq_true, decide_eq_true_eq] at htest
  obtain ⟨⟨page, hpage, hin⟩, ⟨t, ht, hhole⟩, hwaits⟩ := htest
  exact ⟨mounted, v, outcome, v', hv, hr, hclean,
    ⟨page, hpage, .inr ⟨0, hin, 0, t, .self, ht, hhole⟩⟩, hwaits⟩

end View

end ViewSync
