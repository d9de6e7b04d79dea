import ViewSync.Proofs.Roster.Orderly

/-!
# Passes without failures

A failure that a pass recovers from stays on its list, so that in a pass whose list is empty in the
end every drawing went well and nothing is stillborn. In such a pass every reference that was
answered has seen its component, and what is seen stays seen until the pass is closed: all that the
trees of the pass refer to is seen.
-/

namespace ViewSync.Roster

open ViewSync.Pass

variable {kinds : Kinds} {r : Roster}

/-! ## Between passes -/

theorem seen_schedule (r : Roster) (h : Handle) : (r.schedule h).seen = r.seen := by
  obtain ⟨queue, hq, -⟩ := schedule_eq r h
  rw [hq]

theorem seen_deliver (r : Roster) (id : String) (props : Fields) :
    (r.deliver kinds id props).2.seen = r.seen := by
  unfold Roster.deliver
  cases r.handle? id with
  | none => rfl
  | some h =>
      dsimp only
      cases r.get? h with
      | none => rfl
      | some c =>
          dsimp only
          split
          · rfl
          · split
            · exact seen_schedule (r.put h _) h
            · rfl

/-- What is retired is not seen any more. -/
theorem mem_seen_retire {id : String} {k : Handle} (hk : k ∈ (r.retire id).2.seen) :
    k ∈ r.seen ∧ r.handle? id ≠ some k := by
  cases hid : r.handle? id with
  | none =>
      rw [retire_of_none hid] at hk
      exact ⟨hk, by simp⟩
  | some h =>
      have hseen : (r.retire id).2.seen = r.seen.erase h := by
        unfold Roster.retire
        rw [hid]
        dsimp only
        cases r.get? h <;> rfl
      rw [hseen] at hk
      obtain ⟨hk, hne⟩ := KeySet.mem_erase.mp hk
      exact ⟨hk, fun heq => hne (Option.some.inj heq).symm⟩

theorem mem_seen_retireAll {ids : List String} {k : Handle} (hk : k ∈ (r.retireAll ids).seen) :
    k ∈ r.seen ∧ ∀ id ∈ ids, r.handle? id ≠ some k := by
  unfold Roster.retireAll at hk
  induction ids generalizing r with
  | nil => exact ⟨hk, List.forall_mem_nil _⟩
  | cons id ids ih =>
      obtain ⟨hone, hrest⟩ := ih hk
      obtain ⟨hseen, hid⟩ := mem_seen_retire hone
      refine ⟨hseen, List.forall_mem_cons.mpr ⟨hid, fun i hi hik => ?_⟩⟩
      refine hrest i hi ?_
      -- the handle of another id is as before
      have hids : (r.retire id).2.handle? i = (r.ids.erase id).get? i :=
        congrArg (Keyed.get? · i) (ids_retire r id)
      have hne : i ≠ id := fun heq => hid (heq ▸ hik)
      rw [hids, Keyed.get?_erase, if_neg hne]
      exact hik

/-! ## References -/

theorem stillborn_schedule (r : Roster) (h : Handle) :
    (r.schedule h).stillborn = r.stillborn := by
  obtain ⟨queue, hq, -⟩ := schedule_eq r h
  rw [hq]

theorem stillborn_refer (id : String) (kind : KindRef) (props : Fields)
    (owner : Option StreamEntry) :
    (r.refer kinds id kind props owner).2.stillborn = r.stillborn := by
  have hspec := refer_spec kinds r id kind props owner
  generalize (r.refer kinds id kind props owner).1 = x at hspec
  generalize (r.refer kinds id kind props owner).2 = r' at hspec ⊢
  cases hspec with
  | stale => exact stillborn_schedule _ _
  | created => exact (stillborn_schedule _ _).trans (by rw [see, create_rest])
  | _ => rfl

/-- What is seen after a reference: what was seen before, and the component that it was answered
with, unless that is stillborn. -/
theorem mem_seen_refer (kinds : Kinds) (r : Roster) (id : String) (kind : KindRef)
    (props : Fields) (owner : Option StreamEntry) :
    (∀ k ∈ r.seen, k ∈ (r.refer kinds id kind props owner).2.seen) ∧
      ∀ h changed, (r.refer kinds id kind props owner).1 = .ok (h, changed) → h ∉ r.stillborn →
        h ∈ (r.refer kinds id kind props owner).2.seen := by
  have hspec := refer_spec kinds r id kind props owner
  generalize (r.refer kinds id kind props owner).1 = x at hspec
  generalize (r.refer kinds id kind props owner).2 = r' at hspec ⊢
  have hself {s : Roster} (hseen : s.seen = r.seen) (h : Handle) :
      (∀ k ∈ r.seen, k ∈ (s.see h).seen) ∧ h ∈ (s.see h).seen :=
    ⟨fun k hk => KeySet.mem_insert.mpr (.inr (hseen ▸ hk)), KeySet.mem_insert.mpr (.inl rfl)⟩
  cases hspec with
  | refused e => exact ⟨fun _ hk => hk, fun _ _ hok => by cases hok⟩
  | stillborn _ hborn =>
      refine ⟨fun _ hk => hk, ?_⟩
      rintro _ _ ⟨⟩ hout
      exact absurd hborn hout
  | @inside h _ _ =>
      refine ⟨(hself rfl h).1, ?_⟩
      rintro _ _ ⟨⟩ -
      exact (hself rfl h).2
  | failed => exact ⟨fun _ hk => hk, fun _ _ hok => by cases hok⟩
  | @stale h c _ _ _ _ =>
      rw [seen_schedule]
      have hboth := hself (s := r.handOver kinds h c props owner) rfl h
      refine ⟨hboth.1, ?_⟩
      rintro _ _ ⟨⟩ -
      exact hboth.2
  | @unchanged h c _ _ _ _ =>
      have hfollow := followed_followAll (r.handOver kinds h c props owner) [h]
      refine ⟨hfollow.before, ?_⟩
      rintro _ _ ⟨⟩ -
      exact hfollow.frontier h List.mem_cons_self
  | @created a b _ _ _ =>
      rw [seen_schedule]
      have hboth := hself (s := r.create id kind b owner) (by rw [create_rest]) r.takeHandle.1
      refine ⟨hboth.1, ?_⟩
      rintro _ _ ⟨⟩ -
      exact hboth.2

theorem noteDrawn_rest (r : Roster) (e : StreamEntry) :
    (r.noteDrawn e).seen = r.seen ∧ (r.noteDrawn e).stillborn = r.stillborn ∧
      (r.noteDrawn e).queue = r.queue := by
  unfold noteDrawn
  split
  · exact ⟨rfl, rfl, rfl⟩
  · exact ⟨rfl, rfl, rfl⟩

/-! ## Courses -/

variable {p q : Pass} {rs : Refs} {fs : List (String × Stream.Flush)}

/-- No failure is forgotten on the way. -/
theorem errors_course (hcourse : Course kinds p rs fs q) (hq : q.errors = []) : p.errors = [] := by
  induction hcourse with
  | done p => exact hq
  | note e _ ih => exact (List.append_eq_nil_iff.mp (ih hq)).1
  | _ => rename_i ih; exact ih hq

/-- **Along a course, all that it refers to is seen**, as long as nothing is stillborn. -/
theorem seen_course (hcourse : Course kinds p rs fs q) (hborn : p.roster.stillborn = []) :
    q.roster.stillborn = [] ∧ (∀ k ∈ p.roster.seen, k ∈ q.roster.seen) ∧
      ∀ h ∈ rs.map Prod.fst, h ∈ q.roster.seen := by
  induction hcourse with
  | done p => exact ⟨hborn, fun _ hk => hk, List.forall_mem_nil _⟩
  | @refer p q rs fs id kind props owner h changed hok _ ih =>
      obtain ⟨hseen, hanswer⟩ := mem_seen_refer kinds p.roster id kind props owner
      obtain ⟨hborn', hkept, hall⟩ := ih ((stillborn_refer id kind props owner).trans hborn)
      refine ⟨hborn', fun k hk => hkept k (hseen k hk), List.forall_mem_cons.mpr ⟨?_, hall⟩⟩
      exact hkept h (hanswer h changed hok (hborn ▸ List.not_mem_nil))
  | @refuse p q rs fs id kind props owner e _ _ ih =>
      obtain ⟨hseen, -⟩ := mem_seen_refer kinds p.roster id kind props owner
      obtain ⟨hborn', hkept, hall⟩ := ih ((stillborn_refer id kind props owner).trans hborn)
      exact ⟨hborn', fun k hk => hkept k (hseen k hk), hall⟩
  | @draw p q rs fs e _ ih =>
      obtain ⟨hseen, hstill, -⟩ := noteDrawn_rest p.roster e
      obtain ⟨hborn', hkept, hall⟩ := ih (hstill.trans hborn)
      exact ⟨hborn', fun k hk => hkept k (hseen ▸ hk), hall⟩
  | take _ _ ih => exact ih hborn
  | note e _ ih => exact ih hborn

/-! ## Drawings -/

variable {host : Host} {h : Handle} {c : Component} {former : FormerTrees}

/-- A drawing that fails leaves its failure behind. -/
theorem Draws.flawless {result : Except Error Tree} (hd : Draws host p h c rs fs q result)
    (herrors : (Roster.settle q h c former result).2.2.errors = []) :
    p.errors = [] ∧ ∃ t, result = .ok t := by
  cases result with
  | ok t =>
      have hbegun : (begun p h c).errors = [] := errors_course hd.course herrors
      exact ⟨hbegun, t, rfl⟩
  | error e =>
      rw [settle_error (hd.recovers e rfl)] at herrors
      exact absurd (List.append_eq_nil_iff.mp herrors).2 (List.cons_ne_nil e [])

/-- In a drawing that goes well, all that the new tree refers to is seen. -/
theorem Draws.sighted {t : Tree} (hd : Draws host p h c rs fs q (.ok t))
    (hborn : p.roster.stillborn = []) (former : FormerTrees) :
    (Roster.settle q h c former (.ok t)).2.2.roster.stillborn = [] ∧
      (∀ k ∈ p.roster.seen, k ∈ (Roster.settle q h c former (.ok t)).2.2.roster.seen) ∧
      ∀ k ∈ t.handles, k ∈ (Roster.settle q h c former (.ok t)).2.2.roster.seen := by
  have hbegun : (begun p h c).roster.stillborn = [] := hborn
  obtain ⟨hborn', hkept, hall⟩ := seen_course hd.course hbegun
  rw [← (hd.tells t rfl).handles] at hall
  exact ⟨hborn', hkept, hall⟩

/-- **Where no failure is left in the end, every drawing went well, and all that the trees which
were drawn refer to is seen.** -/
theorem Drains.sighted {S : Shape → Prop} {r₀ : Roster} {p₀ : Pass} {ds : List Drawing}
    (hS : ∀ key a, S ((host.kinds key).render a).shape) (hp₀ : Redrawn S r₀ none p₀.roster [])
    (hborn : p₀.roster.stillborn = []) (hd : Drains host p₀ ds p former) (herrors : p.errors = []) :
    p.roster.stillborn = [] ∧ (∀ k ∈ p₀.roster.seen, k ∈ p.roster.seen) ∧
      ∀ d ∈ ds, ∃ t, d.result = .ok t ∧ ∀ k ∈ t.handles, k ∈ p.roster.seen := by
  revert herrors
  refine hd.induct (P := fun ds p _ => p.errors = [] → p.roster.stillborn = [] ∧
    (∀ k ∈ p₀.roster.seen, k ∈ p.roster.seen) ∧
      ∀ d ∈ ds, ∃ t, d.result = .ok t ∧ ∀ k ∈ t.handles, k ∈ p.roster.seen) hS hp₀
    (fun _ => ⟨hborn, fun _ hk => hk, List.forall_mem_nil _⟩)
    (fun ih _ _ herrors => ih herrors) ?_
  intro ds p former h c rs fs q result ih _ hdraw herrors
  obtain ⟨hbefore, t, rfl⟩ := hdraw.flawless herrors
  obtain ⟨hborn, hkept, hall⟩ := ih hbefore
  obtain ⟨hborn', hkept', hseen⟩ := hdraw.sighted hborn former
  refine ⟨hborn', fun k hk => hkept' k (hkept k hk), List.forall_mem_append.mpr ⟨?_, ?_⟩⟩
  · intro d hd
    obtain ⟨u, hu, hsub⟩ := hall d hd
    exact ⟨u, hu, fun k hk => hkept' k (hsub k hk)⟩
  · exact List.forall_mem_singleton.mpr ⟨t, rfl, hseen⟩

end ViewSync.Roster
