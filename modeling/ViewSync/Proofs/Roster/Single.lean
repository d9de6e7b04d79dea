import ViewSync.Proofs.Roster.Nesting
import ViewSync.Proofs.Roster.Reach

/-!
# One reference to each component

At the end of a pass, no two slots point at one component. Then no component was drawn twice in the
pass: what draws it again is a reference from a component further up, which would have to be there
in the end or to be drawn again itself. So the pass has made no more references to a component than
there are slots that point at it, and every reference is kept up.
-/

namespace ViewSync.Roster

/-- What slots point at, one by one: those of a page and those of all components, whether the trees
were rendered or kept. -/
def pointed (root : Tree) (r : Roster) : List Handle :=
  root.handles ++ (List.range r.slots.length).flatMap r.pointedBy

variable {l : Library} {host : Host} {t : Template} {a : Assigns} {root : Tree}
variable {ds es : List Drawing} {d : Drawing} {r w : Roster} {h k : Handle} {ks : List Handle}

/-! ## Counting slots -/

/-- Different components have different slots. -/
theorem count_pointed (root : Tree) (hks : ks.Nodup) (hlt : ∀ k ∈ ks, k < w.slots.length)
    (h : Handle) : root.handles.count h + (ks.flatMap w.pointedBy).count h ≤
      (pointed root w).count h := by
  obtain ⟨ls, hperm, hsub⟩ :=
    List.subperm_of_subset hks fun k hk => List.mem_range.mpr (hlt k hk)
  unfold pointed
  rw [List.count_append, ← (hperm.flatMap_right w.pointedBy).count_eq]
  exact Nat.add_le_add_left ((hsub.flatMap w.pointedBy).count_le h) _

theorem count_flatMap_filter (f : Drawing → List Handle) (ds : List Drawing) (h : Handle) :
    (ds.flatMap f).count h = ((ds.filter (h ∈ f ·)).flatMap f).count h := by
  induction ds with
  | nil => rfl
  | cons d ds ih =>
      by_cases hd : h ∈ f d
      · simp [hd, ih]
      · simp [hd, ih, List.count_eq_zero_of_not_mem hd]

/-- What is drawn once has one drawing. -/
theorem eq_of_draws_le_one {e : Drawing} (honce : draws ds d.handle ≤ 1) (hd : d ∈ ds) (he : e ∈ ds)
    (hsame : e.handle = d.handle) : e = d := by
  have hlength : (ds.filter (·.handle = d.handle)).length ≤ 1 := by
    rw [← List.countP_eq_length_filter]
    exact honce
  have hind : d ∈ ds.filter (·.handle = d.handle) := List.mem_filter.mpr ⟨hd, by simp⟩
  have hine : e ∈ ds.filter (·.handle = d.handle) := List.mem_filter.mpr ⟨he, by simpa using hsame⟩
  generalize ds.filter (·.handle = d.handle) = es at hlength hind hine
  match es with
  | [] => cases hind
  | [x] => exact (List.mem_singleton.mp hine).trans (List.mem_singleton.mp hind).symm
  | _ :: _ :: es =>
      rw [List.length_cons, List.length_cons] at hlength
      omega

theorem nodup_of_draws (hsub : es.Sublist ds) (honce : ∀ d ∈ es, draws ds d.handle ≤ 1) :
    (es.map Drawing.handle).Nodup := by
  rw [List.nodup_iff_count_le_one]
  intro k
  by_cases hk : k ∈ es.map Drawing.handle
  · obtain ⟨d, hd, rfl⟩ := List.mem_map.mp hk
    refine Nat.le_trans ((hsub.map Drawing.handle).count_le d.handle) ?_
    rw [List.count, List.countP_map]
    exact honce d hd
  · rw [List.count_eq_zero_of_not_mem hk]
    exact Nat.zero_le 1

/-! ## At the end of a pass -/

section Single

variable (hren : Renewed l host t a root ds r) (hsingle : (pointed root w).Nodup)
variable (hstays : ∀ d ∈ ds, w.tree? d.handle = r.tree? d.handle)
include hren hsingle hstays

omit hsingle in
/-- What was drawn once is there as it was drawn. -/
theorem Renewed.pointedBy_eq (hd : d ∈ ds) (honce : draws ds d.handle ≤ 1) :
    d.handles = w.pointedBy d.handle ∧ d.handle < w.slots.length := by
  obtain ⟨e, he, tree, hsame, hresult, htree⟩ := hren.last d hd
  obtain rfl := eq_of_draws_le_one honce hd he hsame
  have htree := (hstays e hd).trans htree
  obtain ⟨c, hc, -⟩ := Option.bind_eq_some_iff.mp htree
  refine ⟨?_, lt_of_get? hc⟩
  rw [Drawing.handles, hresult, pointedBy, htree]
  rfl

/-- The references of what was drawn once, and the slots of other components, are at most as many as
there are slots. -/
theorem Renewed.count_le (ks : List Handle) (hsub : es.Sublist ds)
    (honce : ∀ d ∈ es, draws ds d.handle ≤ 1)
    (hks : (ks ++ es.map Drawing.handle).Nodup) (hlt : ∀ k ∈ ks, k < w.slots.length) (h : Handle) :
    root.handles.count h + (es.flatMap Drawing.handles).count h +
      (ks.flatMap w.pointedBy).count h ≤ 1 := by
  have heq : es.flatMap Drawing.handles = (es.map Drawing.handle).flatMap w.pointedBy := by
    rw [List.flatMap_map]
    exact List.flatMap_congr fun d hd =>
      (hren.pointedBy_eq hstays (hsub.subset hd) (honce d hd)).1
  have hbound : ∀ k ∈ ks ++ es.map Drawing.handle, k < w.slots.length := by
    refine List.forall_mem_append.mpr ⟨hlt, List.forall_mem_map.mpr fun d hd => ?_⟩
    exact (hren.pointedBy_eq hstays (hsub.subset hd) (honce d hd)).2
  have hcount := count_pointed root hks hbound h
  rw [List.flatMap_append, List.count_append, ← heq] at hcount
  have hone := List.nodup_iff_count_le_one.mp hsingle h
  omega

/-- **No component was drawn twice.** -/
theorem Renewed.draws_le_one (hacyclic : ∀ kind, ¬Relation.TransGen l.Uses kind kind)
    (h : Handle) : draws ds h ≤ 1 := by
  -- from the top down: what refers to a component is deeper than it is
  induction hn : r.slots.length - depth l r h using Nat.strong_induction_on generalizing h with
  | h n ih =>
      have hsub : ((ds.filter (·.handle ≠ h)).filter (h ∈ ·.handles)).Sublist ds :=
        List.filter_sublist.trans List.filter_sublist
      have honce : ∀ d ∈ (ds.filter (·.handle ≠ h)).filter (h ∈ ·.handles),
          draws ds d.handle ≤ 1 := by
        intro d hd
        simp only [List.mem_filter, decide_eq_true_eq] at hd
        obtain ⟨⟨hd, hne⟩, hh⟩ := hd
        have habove := (hren.above d hd h hh).resolve_left (Ne.symm hne)
        have hlt := depth_lt hacyclic habove
        have hle := depth_le l r d.handle
        exact ih _ (by omega) d.handle rfl
      have hcount := hren.count_le hsingle hstays [] hsub honce (nodup_of_draws hsub honce)
        (List.forall_mem_nil _) h
      have hcalls := hren.calls h
      rw [Roster.calls, count_flatMap_filter] at hcalls
      omega

variable (hacyclic : ∀ kind, ¬Relation.TransGen l.Uses kind kind)
include hacyclic

/-- There was no more than one reference to a component. -/
theorem Renewed.uses_le_one (h : Handle) : uses root ds h ≤ 1 := by
  have honce := fun d (_ : d ∈ ds) => hren.draws_le_one hsingle hstays hacyclic d.handle
  exact hren.count_le hsingle hstays [] (List.Sublist.refl ds) honce
    (nodup_of_draws (List.Sublist.refl ds) honce) (List.forall_mem_nil _) h

/-- There was none to what a tree from before points at. -/
theorem Renewed.uses_eq_zero (hk : k ∉ ds.map Drawing.handle) (hh : h ∈ w.pointedBy k) :
    uses root ds h = 0 := by
  have honce := fun d (_ : d ∈ ds) => hren.draws_le_one hsingle hstays hacyclic d.handle
  have hlt : k < w.slots.length := by
    obtain ⟨u, hu, -⟩ := mem_pointedBy.mp hh
    obtain ⟨c, hc, -⟩ := Option.bind_eq_some_iff.mp hu
    exact lt_of_get? hc
  have hcount := hren.count_le hsingle hstays [k] (List.Sublist.refl ds) honce
    (List.nodup_cons.mpr ⟨hk, nodup_of_draws (List.Sublist.refl ds) honce⟩)
    (List.forall_mem_singleton.mpr hlt) h
  rw [List.flatMap_singleton] at hcount
  have hpos := List.count_pos_iff.mpr hh
  change root.handles.count h + (ds.flatMap Drawing.handles).count h = 0
  omega

/-- **So every reference is kept up in the end**, if the records and ids that count are still
there. -/
theorem Renewed.coherent (hqueue : r.queue = [])
    (hsub : ∀ h c, w.get? h = some c → r.get? h = some c ∧ c.retired = false)
    (hids : ∀ ref h, h ∈ pointed root w → Named r ref h → Named w ref h) :
    Coherent l host w ∧ t.Filled host.config.escapeHtml (Meets w) a root := by
  have hmeets {ref : Reference} {k : Handle} (hk : k ∈ pointed root w) (hm : Meets r ref k) :
      Meets w ref k := by
    obtain ⟨hnamed, c, hc, hholds⟩ := hm
    have hnamed' := hids ref k hk hnamed
    have ⟨_, c', hc', _⟩ := hnamed'
    obtain rfl := Option.some.inj (hc.symm.trans (hsub k c' hc').1)
    exact ⟨hnamed', c, hc', hholds⟩
  have hsettled (k : Handle) (c : Component) (hc : w.get? k = some c) :=
    hren.open.settled hqueue (hsub k c hc).1 (hsub k c hc).2
  refine ⟨⟨fun k c hc => hren.kinds k c (hsub k c hc).1,
    fun k c hc => hren.open.propped k c (hsub k c hc).1, fun k c hc => (hsettled k c hc).2,
    fun k c hc => ?_⟩, ?_⟩
  · obtain ⟨⟨tree, htree⟩, hnil⟩ := hsettled k c hc
    obtain ⟨base, hbase, hfilled⟩ := hren.trees k c tree (hsub k c hc).1 htree
    refine ⟨tree, htree, ?_⟩
    rw [Template.Filled, hbase hnil]
    refine Template.Filled.imp hfilled fun ref x hx hlink => ?_
    have hin : x ∈ w.pointedBy k := mem_pointedBy.mpr ⟨tree, (tree?_of_get? hc).trans htree, hx⟩
    have hpointed : x ∈ pointed root w := List.mem_append_right _
      (List.mem_flatMap.mpr ⟨k, List.mem_range.mpr (lt_of_get? hc), hin⟩)
    refine hmeets hpointed (hlink.resolve_right fun hmany => ?_)
    split at hmany
    · have := hren.uses_le_one hsingle hstays hacyclic x
      omega
    · next hkept =>
        have := hren.uses_eq_zero hsingle hstays hacyclic hkept hin
        omega
  · refine hren.page.imp fun ref x hx hlink => ?_
    refine hmeets (List.mem_append_left _ hx) (hlink.resolve_right fun hmany => ?_)
    have := hren.uses_le_one hsingle hstays hacyclic x
    omega

end Single

end ViewSync.Roster
