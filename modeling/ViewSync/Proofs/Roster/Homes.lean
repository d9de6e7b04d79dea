import ViewSync.Proofs.Roster.Replies

/-!
# Components at home in a stream entry

Where every reference to a component comes from one and the same stream entry, that is its home, and
where none comes from an entry it has no home. A pass without failures leaves every component with
its home as its owner. What becomes of ids, of entries and of flushes in such a pass can be told
from its actions alone: an id has the handle that it had, or the one that a reference to it was
answered with; an entry counts as rendered if an action has rendered it; and a flush is left, or a
hole has taken it.
-/

namespace ViewSync.Roster

open ViewSync.Pass

/-- A state of a pass without failures is told from the state at its start and from the actions
since. -/
structure Retold (home : String → Option StreamEntry) (p₀ : Pass) (acts : List Action) (p : Pass) :
    Prop where
  /-- References may be made. -/
  ready : p.roster.Ready
  /-- The ids are those from the start and those that were referred to. -/
  ids : ∀ id h, p.roster.handle? id = some h ↔
    p₀.roster.handle? id = some h ∨ ∃ owner, .refer owner id h ∈ acts
  /-- The entries that were drawn are those from the start and those that actions drew. -/
  drawn : ∀ e, e ∈ p.roster.drawn ↔ e ∈ p₀.roster.drawn ∨ .draw e ∈ acts
  /-- The flushes that are left are from the start. -/
  left : ∀ name f, p.flushes.get? name = some f → p₀.flushes.get? name = some f
  /-- A flush was taken exactly if it was there and is not any more. -/
  taken : ∀ name f, .take name (some f) ∈ acts ↔
    p₀.flushes.get? name = some f ∧ p.flushes.get? name = none
  /-- Components are owned by their homes if they were so, and all references come from there. -/
  owner : (∀ h c, p₀.roster.get? h = some c → c.owner = home c.id) →
    (∀ owner id h, .refer owner id h ∈ acts → owner = home id) →
    ∀ h c, p.roster.get? h = some c → c.owner = home c.id

namespace Retold

variable {home : String → Option StreamEntry} {p₀ p q : Pass} {acts acts' : List Action}

theorem start (hready : p₀.roster.Ready) : Retold home p₀ [] p₀ where
  ready := hready
  ids id h := by simp
  drawn e := by simp
  left name f hf := hf
  taken name f := by
    refine iff_of_false List.not_mem_nil ?_
    rintro ⟨hf, hnone⟩
    cases hf.symm.trans hnone
  owner howner _ := howner

/-- Marks, and records that keep their ids and owners, do not matter. -/
theorem congr (ht : Retold home p₀ acts p) (hready : q.roster.Ready)
    (hids : q.roster.ids = p.roster.ids) (hdrawn : q.roster.drawn = p.roster.drawn)
    (hflushes : q.flushes = p.flushes)
    (hrecord : ∀ h c, q.roster.get? h = some c →
      ∃ d k, p.roster.get? k = some d ∧ c.id = d.id ∧ c.owner = d.owner) :
    Retold home p₀ acts q where
  ready := hready
  ids id h := by
    rw [handle?, hids]
    exact ht.ids id h
  drawn e := by
    rw [hdrawn]
    exact ht.drawn e
  left name f hf := ht.left name f (hflushes ▸ hf)
  taken name f := hflushes ▸ ht.taken name f
  owner hbefore hhome h c hc := by
    obtain ⟨d, k, hd, hid, howner⟩ := hrecord h c hc
    rw [howner, hid]
    exact ht.owner hbefore hhome k d hd

/-- A reference gives a handle to its id, and a home to the component. -/
theorem refer {owner : Option StreamEntry} {id : String} {h : Handle} {r : Roster}
    (ht : Retold home p₀ acts p) (hready : r.Ready) (hr : Replied p.roster id owner h r) :
    Retold home p₀ (acts ++ [.refer owner id h]) { p with roster := r } where
  ready := hready
  ids i k := by
    rw [hr.ids]
    constructor
    · intro hk
      split at hk
      · next heq =>
          obtain rfl := Option.some.inj hk
          exact .inr ⟨owner, List.mem_append_right _ (heq ▸ List.mem_singleton_self _)⟩
      · exact ((ht.ids i k).mp hk).imp_right fun ⟨o, ho⟩ => ⟨o, List.mem_append_left _ ho⟩
    · intro hk
      have hold (hold : p.roster.handle? i = some k) :
          (if i = id then some h else p.roster.handle? i) = some k := by
        split
        · next heq =>
            rw [heq] at hold
            rcases hr.known with hknown | ⟨hnone, -⟩
            · exact hknown.symm.trans hold
            · cases hnone.symm.trans hold
        · exact hold
      rcases hk with hk | ⟨o, ho⟩
      · exact hold ((ht.ids i k).mpr (.inl hk))
      · rcases List.mem_append.mp ho with ho | ho
        · exact hold ((ht.ids i k).mpr (.inr ⟨o, ho⟩))
        · obtain ⟨-, rfl, rfl⟩ := Action.refer.inj (List.mem_singleton.mp ho)
          exact if_pos rfl
  drawn e := by
    change e ∈ r.drawn ↔ _
    rw [hr.drawn, ht.drawn, List.mem_append]
    refine or_congr_right ⟨.inl, fun hin => hin.resolve_right ?_⟩
    exact fun hin => nomatch List.mem_singleton.mp hin
  left := ht.left
  taken name f := by simpa using ht.taken name f
  owner hstart hhome k c hc := by
    have hbefore : ∀ o i j, .refer o i j ∈ acts → o = home i :=
      fun o i j hin => hhome o i j (List.mem_append_left _ hin)
    by_cases hk : k = h
    · subst hk
      have hid : r.handle? id = some k := (hr.ids id).trans (if_pos rfl)
      have hcid := (hready.record id k c hid hc).1
      have hnow : owner = home id := hhome owner id k (by simp)
      rw [hr.owner c hc, hcid]
      cases owner with
      | some e => exact hnow
      | none =>
          cases hd : p.roster.get? k with
          | none => exact hnow
          | some d =>
              -- the component was there before, under its id
              have hknown : p.roster.handle? id = some k :=
                hr.known.resolve_right fun hnone => (by cases hnone.2.symm.trans hd)
              have howner := ht.owner hstart hbefore k d hd
              rw [(ht.ready.record id k d hknown hd).1] at howner
              exact howner
    · change r.get? k = some c at hc
      rw [hr.others k hk] at hc
      exact ht.owner hstart hbefore k c hc

theorem take (ht : Retold home p₀ acts p) (name : String) :
    Retold home p₀ (acts ++ [.take name (p.flushes.get? name)])
      { p with flushes := p.flushes.erase name } where
  ready := ht.ready
  ids id h := by simpa using ht.ids id h
  drawn e := by simpa using ht.drawn e
  left k f hf := by
    rw [Keyed.get?_erase] at hf
    split at hf
    · cases hf
    · exact ht.left k f hf
  taken k f := by
    rw [Keyed.get?_erase, List.mem_append, ht.taken, List.mem_singleton, Action.take.injEq]
    split
    · next heq =>
        -- what it takes was there at the start
        subst heq
        constructor
        · rintro (⟨hf, -⟩ | ⟨-, hf⟩)
          · exact ⟨hf, rfl⟩
          · exact ⟨ht.left k f hf.symm, rfl⟩
        · rintro ⟨hf, -⟩
          cases hleft : p.flushes.get? k with
          | none => exact .inl ⟨hf, rfl⟩
          | some g =>
              obtain rfl := Option.some.inj (hf.symm.trans (ht.left k g hleft))
              exact .inr ⟨rfl, rfl⟩
    · next hne => exact or_iff_left fun h => hne h.1
  owner hstart hhome := ht.owner hstart fun o i h hin => hhome o i h (List.mem_append_left _ hin)

theorem draw (ht : Retold home p₀ acts p) (e : StreamEntry) :
    Retold home p₀ (acts ++ [.draw e]) { p with roster := p.roster.noteDrawn e } := by
  obtain ⟨drawn, heq, hin⟩ := noteDrawn_eq p.roster e
  refine ⟨ht.ready.noteDrawn e, fun id h => ?_, fun x => ?_, ht.left, fun name f => ?_,
    fun hstart hhome h c hc => ?_⟩
  · rw [heq]
    change p.roster.handle? id = some h ↔ _
    simpa using ht.ids id h
  · rw [heq, hin, ht.drawn]
    simp only [List.mem_append, List.mem_singleton, Action.draw.injEq]
    exact or_comm.trans or_assoc
  · simpa using ht.taken name f
  · rw [heq] at hc
    exact ht.owner hstart (fun o i k hin => hhome o i k (List.mem_append_left _ hin)) h c hc

/-- **A smooth course is told by its actions.** -/
theorem course {kinds : Kinds} (ht : Retold home p₀ acts p) (hs : Smooth kinds p acts' q) :
    Retold home p₀ (acts ++ acts') q := by
  induction hs generalizing acts with
  | done p => rwa [List.append_nil]
  | @refer p q acts' id kind props owner h changed hok _ ih =>
      have hnext := ih (ht.refer (ht.ready.refer kinds id kind props owner)
        (replied_refer ht.ready (Prod.ext hok rfl)))
      rwa [List.append_assoc] at hnext
  | take name _ ih =>
      have hnext := ih (ht.take name)
      rwa [List.append_assoc] at hnext
  | draw e _ ih =>
      have hnext := ih (ht.draw e)
      rwa [List.append_assoc] at hnext

end Retold

/-! ## Draining -/

variable {host : Host} {home : String → Option StreamEntry} {p₀ p₁ p q : Pass} {h : Handle}
variable {c : Component} {rs : Refs} {fs : List (String × Stream.Flush)} {t : Tree}
variable {former : FormerTrees} {acts acts' : List Action}

/-- The marks of what was drawn. -/
def Drawing.marks (d : Drawing) : List Mark := (d.result.toOption.map Tree.marks).getD []

theorem Drawing.marks_eq {d : Drawing} {t : Tree} (ht : d.result = .ok t) : d.marks = t.marks := by
  rw [Drawing.marks, ht]
  rfl

/-- A drawing that takes a smooth course is told by its actions, from its start to when the record
is put back. -/
theorem Retold.drawing (ht : Retold home p₀ acts p) (hr : p.roster.Arena)
    (hdraw : Draws host p h c rs fs q (.ok t))
    (hacts : Smooth host.kinds (begun p h c) acts' q) (former : FormerTrees) :
    Retold home p₀ (acts ++ acts') (settle q h c former (.ok t)).2.2 := by
  have hbegun : Retold home p₀ acts (begun p h c) :=
    ht.congr (ht.ready.begun h c) rfl rfl rfl fun k d hd => ⟨d, k, (of_get?_begun hd).2, rfl, rfl⟩
  have hq := hbegun.course hacts
  obtain ⟨-, harena, hback⟩ := hdraw.put_back hr former
  refine ⟨harena.ready hq.ready.stillborn, hq.ids, hq.drawn, hq.left, hq.taken,
    fun hstart hhome k d hd => ?_⟩
  rw [hback] at hd
  split at hd
  · obtain rfl := Option.some.inj hd
    -- the owner is that from before
    exact ht.owner hstart (fun o i j hin => hhome o i j (List.mem_append_left _ hin)) h c
      hdraw.record
  · exact hq.owner hstart hhome k d hd

/-- **A pass without failures is told by actions that its trees recall.** -/
theorem Drains.retold {S : Shape → Prop} {r₀ : Roster} {ds : List Drawing}
    (hS : ∀ key a, S ((host.kinds key).render a).shape) (hp₁ : Redrawn S r₀ none p₁.roster [])
    (hnamed : p₁.Named) (ht : Retold home p₀ acts p₁) (hd : Drains host p₁ ds p former)
    (herrors : p.errors = []) :
    ∃ more, more.map Action.mark = ds.flatMap Drawing.marks ∧ Retold home p₀ (acts ++ more) p := by
  refine hd.smooth (P := fun ds p _ => ∃ more, more.map Action.mark = ds.flatMap Drawing.marks ∧
    Retold home p₀ (acts ++ more) p) hS hp₁ hnamed ⟨[], rfl, by rwa [List.append_nil]⟩ ?_ ?_ herrors
  · rintro ds p former h queue ⟨more, hmarks, ht⟩ - -
    exact ⟨more, hmarks, ht.congr (ht.ready.congr rfl rfl rfl rfl) rfl rfl rfl
      fun k d hd => ⟨d, k, hd, rfl, rfl⟩⟩
  · rintro ds p former h c rs fs q t acts' ⟨more, hmarks, ht⟩ hredrawn hdraw hacts hrecalls
    refine ⟨more ++ acts', ?_, ?_⟩
    · rw [List.map_append, hmarks, ← hrecalls, List.flatMap_append]
      simp [Drawing.marks, Except.toOption]
    · rw [← List.append_assoc]
      exact ht.drawing hredrawn.arena hdraw hacts former

/-- A drawing whose tree has a hole with edits took the flush of the stream. -/
theorem Drains.taken {S : Shape → Prop} {r₀ : Roster} {ds : List Drawing}
    (hS : ∀ key a, S ((host.kinds key).render a).shape) (hp₁ : Redrawn S r₀ none p₁.roster [])
    (hnamed : p₁.Named) (hd : Drains host p₁ ds p former) (herrors : p.errors = []) :
    ∀ d ∈ ds, ∀ name e, .hole name (some e) ∈ d.marks → name ∈ d.taken := by
  refine hd.smooth (P := fun ds _ _ => ∀ d ∈ ds, ∀ (name : String) (e : StreamEdits),
    Mark.hole name (some e) ∈ d.marks → name ∈ d.taken) hS hp₁ hnamed (List.forall_mem_nil _)
    (fun ih _ _ => ih) ?_ herrors
  intro ds p former h c rs fs q t acts' ih _ _ hacts hrecalls
  refine List.forall_mem_append.mpr ⟨ih, List.forall_mem_singleton.mpr fun name e hin => ?_⟩
  have hmark : .hole name (some e) ∈ acts'.map Action.mark := hrecalls ▸ hin
  obtain ⟨f, htake, rfl⟩ := hole_mem_marks.mp hmark
  have hbefore : p.flushes.get? name = some f := hacts.taken htake
  have hafter : q.flushes.get? name = none := by
    rw [hacts.flushes, get?_without, if_pos]
    exact List.mem_filterMap.mpr ⟨_, hmark, rfl⟩
  refine List.mem_filter.mpr ⟨Keyed.mem_keys_iff_has.mpr ?_, ?_⟩
  · rw [Keyed.has, hbefore]
    rfl
  · rw [Keyed.has, hafter]
    rfl

/-! ## Between passes -/

variable {kinds : Kinds} {r : Roster} {id : String} {props : Fields}

/-- A reference from outside of entries leaves every record with its id and its owner, and makes
none but under its own id, without an owner. -/
theorem record_refer (hspare : r.SpareEmpty) {kind : KindRef} {k : Handle} {d : Component}
    (hd : (r.refer kinds id kind props none).2.get? k = some d) :
    (∃ d₀, r.get? k = some d₀ ∧ d.id = d₀.id ∧ d.owner = d₀.owner) ∨
      d.id = id ∧ d.owner = none := by
  have hspec := refer_spec kinds r id kind props none
  generalize (r.refer kinds id kind props none).1 = x at hspec
  generalize (r.refer kinds id kind props none).2 = r' at hspec hd
  have hsame (hd : r.get? k = some d) :
      ∃ d₀, r.get? k = some d₀ ∧ d.id = d₀.id ∧ d.owner = d₀.owner := ⟨d, hd, rfl, rfl⟩
  have hover {h : Handle} {c : Component} (hc : r.get? h = some c)
      (hd : (r.handOver kinds h c props none).get? k = some d) :
      ∃ d₀, r.get? k = some d₀ ∧ d.id = d₀.id ∧ d.owner = d₀.owner := by
    rw [get?_handOver kinds hc] at hd
    split at hd
    · next hk =>
        obtain rfl := Option.some.inj hd
        exact ⟨c, hk ▸ hc, rfl, rfl⟩
    · exact hsame hd
  cases hspec with
  | refused e => exact .inl (hsame hd)
  | stillborn => exact .inl (hsame hd)
  | inside => exact .inl (hsame hd)
  | failed _ _ hc _ => exact .inl (hover hc hd)
  | stale _ _ hc _ =>
      rw [get?_schedule] at hd
      exact .inl (hover hc hd)
  | unchanged _ _ hc _ => exact .inl (hover hc hd)
  | @created a b _ _ _ =>
      rw [get?_schedule] at hd
      have hd := (get?_create hspare id kind b none k).symm.trans hd
      split at hd
      · obtain rfl := Option.some.inj hd
        exact .inr ⟨rfl, rfl⟩
      · exact .inl (hsame hd)

/-- Props that are delivered leave every record with its id and its owner. -/
theorem record_deliver {k : Handle} {d : Component}
    (hd : (r.deliver kinds id props).2.get? k = some d) :
    ∃ d₀, r.get? k = some d₀ ∧ d.id = d₀.id ∧ d.owner = d₀.owner := by
  have hput {h : Handle} {c : Component} {a : Assigns} (hc : r.get? h = some c)
      (hd : (r.put h { c with assigns := a }).get? k = some d) :
      ∃ d₀, r.get? k = some d₀ ∧ d.id = d₀.id ∧ d.owner = d₀.owner := by
    rw [get?_put (lt_of_get? hc)] at hd
    split at hd
    · next hk =>
        obtain rfl := Option.some.inj hd
        exact ⟨c, hk ▸ hc, rfl, rfl⟩
    · exact ⟨d, hd, rfl, rfl⟩
  unfold deliver at hd
  split at hd
  · exact ⟨d, hd, rfl, rfl⟩
  · split at hd
    · exact ⟨d, hd, rfl, rfl⟩
    · next c hc =>
        dsimp only at hd
        split at hd
        · exact hput hc hd
        · split at hd
          · rw [get?_schedule] at hd
            exact hput hc hd
          · exact hput hc hd

end ViewSync.Roster
