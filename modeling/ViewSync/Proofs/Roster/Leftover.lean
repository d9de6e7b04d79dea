import ViewSync.Proofs.Patch.Handles
import ViewSync.Proofs.Roster.Stillborn
import ViewSync.Proofs.Roster.Tended
import ViewSync.Proofs.Roster.Undoing

/-!
# Failures that are left over

Rendering the queue notes what is stillborn, and drops it at the end, but what is noted stays until
the pass is closed or undone. Where the queue is rendered more than once, or components are made
between passes, a handle may be noted that has been given to another component since. That
component is dropped at the end of the next rendering as well, however it went.
-/

namespace ViewSync.Roster

open ViewSync.Pass

variable {kinds : Kinds} {host : Host} {h k : Handle} {id : String} {c d : Component} {m : Moment}
variable {ds : List Drawing} {r r' : Roster} {former : FormerTrees} {p p' p₀ : Pass} {fuel : Nat}
variable {patches : Keyed Handle Patch} {t : Tree}

/-! ## An id of one's own -/

/-- A record after an edit is one from before, or that of a component that was just made. -/
theorem record?_of_edit {Good : Value → Prop} (he : Edit kinds Good m.roster r)
    (hd : ({ m with roster := r } : Moment).record? k = some d) :
    (∃ d₀, m.record? k = some d₀ ∧ d₀.id = d.id ∧ d₀.retired = d.retired ∧ d₀.tree = d.tree) ∨
      r.handle? d.id = some k := by
  rcases record?_cases m k with ⟨a, -, haway⟩ | hin
  · obtain rfl := Option.some.inj ((haway r).symm.trans hd)
    exact .inl ⟨_, haway m.roster, rfl, rfl, rfl⟩
  · rw [hin r] at hd
    have hsame (hget : r.get? k = m.roster.get? k) : ∃ d₀, m.record? k = some d₀ ∧
        d₀.id = d.id ∧ d₀.retired = d.retired ∧ d₀.tree = d.tree :=
      ⟨d, (hin m.roster).trans (hget ▸ hd), rfl, rfl, rfl⟩
    cases he with
    | marks _ _ => exact .inl (hsame rfl)
    | keep _ => exact .inl (hsame rfl)
    | @rewrite j b props owner seen queue hb _ _ =>
        have hget := get?_handOver kinds hb props owner k
        by_cases hk : k = j
        · subst hk
          rw [if_pos rfl] at hget
          obtain rfl := Option.some.inj (hget.symm.trans hd)
          exact .inl ⟨b, (hin m.roster).trans hb, rfl, rfl, rfl⟩
        · exact .inl (hsame (hget.trans (if_neg hk)))
    | @create id kind props a b owner seen queue _ _ _ _ _ _ =>
        rcases get?_create_cases (r := m.roster) hd with ⟨rfl, rfl⟩ | hold
        · right
          exact (handle?_create m.roster id kind b owner id).trans (if_pos rfl)
        · exact .inl ⟨d, (hin m.roster).trans hold, rfl, rfl, rfl⟩

/-- An edit takes no id from a component. -/
theorem handle?_edit {Good : Value → Prop} (he : Edit kinds Good r r')
    (hid : r.handle? id = some h) : r'.handle? id = some h := by
  cases he with
  | @create id' kind props a b owner seen queue hnone _ _ _ _ _ =>
      have hne : id ≠ id' := by
        intro heq
        rw [heq, hnone] at hid
        cases hid
      exact (handle?_create r id' kind b owner id).trans ((if_neg hne).trans hid)
  | _ => exact hid

/-- Unless an id is given to another handle, no other record has it and may come to be stillborn. -/
structure Sole (h : Handle) (id : String) (m : Moment) : Prop where
  /-- The record that is away is live. -/
  away : ∀ k d, m.away = some (k, d) → d.retired = false
  /-- No other record with the id is stillborn, or live without a tree. -/
  others : (∀ k, m.roster.handle? id = some k → k = h) → ∀ k d, k ≠ h → m.record? k = some d →
    d.id = id → k ∉ m.roster.stillborn ∧ (d.retired = true ∨ d.tree ≠ none)

/-- A record that was put back. -/
theorem get?_put_eq (hd : (r.put k c).get? k = some d) : d = c := by
  have hlt := lt_of_get? hd
  rw [length_put] at hlt
  rw [get?_put hlt, if_pos rfl] at hd
  exact (Option.some.inj hd).symm

/-- **An id of one's own stays so.** -/
theorem carried_sole (host : Host) (h : Handle) (id : String) :
    Carried host fun _ m => Sole h id m where
  refer {ds m} id' kind props owner hs := by
    have he := edit_refer_any host.kinds m.roster id' kind props owner
    have hborn : (m.roster.refer host.kinds id' kind props owner).2.stillborn =
      m.roster.stillborn := stillborn_refer id' kind props owner
    generalize (m.roster.refer host.kinds id' kind props owner).2 = r' at he hborn ⊢
    refine ⟨hs.away, fun honly k d hk hd hid => ?_⟩
    rcases record?_of_edit he hd with ⟨d₀, hd₀, hid₀, hret, htree⟩ | hlisted
    · rw [hborn, ← hret, ← htree]
      exact hs.others (fun j hj => honly j (handle?_edit he hj)) k d₀ hk hd₀ (hid₀.trans hid)
    · exact absurd (honly k (hid ▸ hlisted)) hk
  marks _ _ hs := ⟨hs.away, hs.others⟩
  skip hs _ := ⟨hs.away, hs.others⟩
  lift {ds r former j queue c} hs _ hc hlive := by
    refine ⟨fun k d haway => ?_, fun honly k d hk hd hid => ?_⟩
    · obtain ⟨rfl, rfl⟩ := Prod.mk.inj (Option.some.inj haway)
      exact hlive
    · exact hs.others honly k d hk ((record?_lift hc queue).symm.trans hd) hid
  redraw {ds r former j c} t _ hs := by
    refine ⟨fun _ _ haway => (by cases haway), fun honly k d hk hd hid => ?_⟩
    by_cases hkj : k = j
    · subst hkj
      obtain rfl := get?_put_eq hd
      exact ⟨(hs.others honly k c hk record?_self hid).1, .inr (Option.some_ne_none t)⟩
    · have hold : r.get? k = some d := (get?_put_of_ne hkj _).symm.trans hd
      exact hs.others honly k d hk ((record?_of_ne (Ne.symm hkj)).trans hold) hid
  fail {ds r former j c} _ _ hs := by
    obtain ⟨stillborn, heq, hiff⟩ := putBack_of_fail r j c
    rw [heq]
    refine ⟨fun _ _ haway => (by cases haway), fun honly k d hk hd hid => ?_⟩
    by_cases hkj : k = j
    · subst hkj
      obtain rfl := get?_put_eq hd
      obtain ⟨hout, hsafe⟩ := hs.others honly k d hk record?_self hid
      refine ⟨fun hin => ?_, hsafe⟩
      -- it is rendered, so that it has not been retired
      have hlive := hs.away k d rfl
      rw [hlive] at hsafe
      exact hsafe.resolve_left Bool.false_ne_true (((hiff k).mp hin).resolve_left hout).2
    · have hold : r.get? k = some d := (get?_put_of_ne hkj _).symm.trans hd
      obtain ⟨hout, hsafe⟩ := hs.others honly k d hk ((record?_of_ne (Ne.symm hkj)).trans hold) hid
      refine ⟨fun hin => hout (((hiff k).mp hin).resolve_right fun hnew => hkj hnew.1), hsafe⟩

/-! ## What stays besides -/

/-- A component that is live stays listed. -/
theorem carried_handle? (host : Host) (h : Handle) (id : String) :
    Carried host fun _ m => m.roster.handle? id = some h where
  refer id' kind props owner hid :=
    handle?_edit (edit_refer_any host.kinds _ id' kind props owner) hid
  marks _ _ hid := hid
  skip hid _ := hid
  lift hid _ _ _ := hid
  redraw _ _ hid := hid
  fail {ds r former k c} _ _ hid := by
    obtain ⟨stillborn, heq, -⟩ := putBack_of_fail r k c
    rw [heq]
    exact hid

/-- A former tree that was noted stays noted. -/
theorem carried_former (host : Host) (h : Handle) (before : Option Tree) :
    Carried host fun _ m => m.former.get? h = some before where
  refer _ _ _ _ hf := hf
  marks _ _ hf := hf
  skip hf _ := hf
  lift hf _ _ _ := hf
  redraw {ds r former k c} t _ hf := by
    rw [Keyed.get?_insertNew]
    split
    · next heq =>
        rw [← heq, hf]
        rfl
    · exact hf
  fail _ _ hf := hf

/-- Dropping components takes away their ids, and no others. -/
theorem handle?_drop_all {hs : List Handle} (hid : r.handle? id = some h)
    (hother : ∀ k ∈ hs, ∀ d, r.get? k = some d → d.id ≠ id) :
    (hs.foldl drop r).handle? id = some h := by
  induction hs generalizing r with
  | nil => exact hid
  | cons k hs ih =>
      obtain ⟨hhead, htail⟩ := List.forall_mem_cons.mp hother
      refine ih ?_ fun j hj d hd => ?_
      · cases hk : r.get? k with
        | none =>
            unfold drop
            rw [hk]
            exact hid
        | some b =>
            rw [drop_of_get? hk]
            change (r.ids.erase b.id).get? id = some h
            rw [Keyed.get?_erase, if_neg (Ne.symm (hhead b hk))]
            exact hid
      · rw [(drop_rest r k).2.2] at hd
        split at hd
        · cases hd
        · exact htail j hj d hd

/-! ## Rendering the queue -/

/-- No failure is left over under a handle, or under another one with the same id. The handle is not
to spare while it is in use, and no other record has the id and could fail for the first time. -/
structure Clear (r : Roster) (h : Handle) (id : String) : Prop where
  /-- The handle is not stillborn. -/
  stillborn : h ∉ r.stillborn
  /-- A handle to spare has no record. -/
  spare : h ∈ r.spare → r.get? h = none
  /-- No other record with the id is stillborn, or live without a tree. -/
  others : ∀ k d, k ≠ h → r.get? k = some d → d.id = id →
    k ∉ r.stillborn ∧ (d.retired = true ∨ d.tree ≠ none)

/-- Where records, ids and handles go together, it is clear unless a failure is left over. -/
theorem Arena.clear (hr : r.Arena) (hborn : r.stillborn = [])
    (hid : ∀ k, r.handle? id = some k → k = h) : Clear r h id where
  stillborn := hborn ▸ List.not_mem_nil
  spare hin := get?_of_empty (hr.spare_empty h hin)
  others k d hk hd hdid := by
    refine ⟨hborn ▸ List.not_mem_nil, Or.inl (eq_true_of_ne_false fun hlive => hk ?_)⟩
    exact hid k ((hr.ids_iff id k).mpr ⟨d, hd, hdid, hlive⟩)

theorem Clear.tended (hc : Clear p₀.roster h id) (hr : Reached kinds p₀.roster) :
    Tended h [] ⟨none, p₀.roster, []⟩ where
  queue := (unrepeated_reached hr).queue
  sorted := (proper_reached hr).spare_sorted
  spare := hc.spare
  away _ haway := by cases haway
  stillborn hin := absurd hin hc.stillborn
  drawn _ hlast := by cases hlast
  former hf := absurd rfl hf

/-- What is true of a component when the queue is drained, if it was drawn: it has the tree of its
last drawing, and its id is safe. -/
structure Drawn (host : Host) (fuel : Nat) (p₀ : Pass) (h : Handle) (id : String) (first : Prop)
    (p : Pass) (former : FormerTrees) : Prop where
  /-- It is live, with the tree of its last drawing. -/
  tree : ∃ d u, p.roster.get? h = some d ∧ d.id = id ∧ d.retired = false ∧ d.tree = some u ∧
    lastDrawn (drawings host fuel p₀) h = some u
  /-- It is not stillborn. -/
  stillborn : h ∉ p.roster.stillborn
  /-- Its id stays when what is stillborn is dropped. -/
  handle? : p.roster.dropStillborn.handle? id = some h
  /-- Its tree from before is noted, and there was none if this was the first. -/
  noted : ∃ before, (h, before) ∈ former ∧ (first → before = none)

theorem Turn.drawn (ht : Turn host p₀ ds p former h c (.ok t)) (hr : Reached kinds p₀.roster)
    (hclear : Clear p₀.roster h c.id) (hid : p.roster.handle? c.id = some h) {q : Pass}
    {formerq : FormerTrees} (hd : drain host fuel p₀ [] = some (.ok (), formerq, q)) :
    Drawn host fuel p₀ h c.id (c.tree = none) q formerq := by
  have hturn : Tended h ds ⟨none, p.roster, former⟩ :=
    (carried_tended host h).drains (hclear.tended hr) ht.drains
  have hend : Tended h (drawings host fuel p₀) ⟨none, q.roster, formerq⟩ :=
    (carried_tended host h).drain [] (hclear.tended hr) hd
  have hsole : Sole h c.id ⟨none, q.roster, formerq⟩ :=
    (carried_sole host h c.id).drain []
      ⟨fun _ _ haway => (by cases haway), fun _ => hclear.others⟩ hd
  -- from the turn on the record is there, and the id is listed
  obtain ⟨rest, hrest, -⟩ := ht.drains.rest hd
  have htaken : Taken h c.id ⟨none, p.roster, former⟩ := by
    refine ⟨fun hin => ?_, lt_of_get? ht.record, c, ht.record, rfl, ht.live⟩
    cases ht.record.symm.trans (hturn.spare hin)
  obtain ⟨d, hd', hdid, hlive⟩ := ((carried_taken host h c.id).drain [] htaken hrest).record
  have hlisted : q.roster.handle? c.id = some h :=
    (carried_handle? host h c.id).drain [] (p := p) hid hrest
  -- it was drawn, and noted with the tree that it had before
  obtain ⟨rest', q', taken, -, hrest', hdrawings⟩ := ht.rest hd
  obtain ⟨u, hu⟩ : ∃ u, lastDrawn (drawings host fuel p₀) h = some u := by
    rw [hdrawings, ← List.singleton_append, lastDrawn_append, lastDrawn_append, lastDrawn_singleton,
      if_pos rfl]
    exact Option.ne_none_iff_exists'.mp (by simp [Except.toOption])
  obtain ⟨hborn, b, hb, htree⟩ := hend.drawn u hu
  obtain rfl := Option.some.inj (hd'.symm.trans hb)
  refine ⟨⟨d, u, hd', hdid, hlive, htree, hu⟩, hborn, handle?_drop_all hlisted ?_, ?_⟩
  · intro k hk b hb hbid
    by_cases hkh : k = h
    · exact hborn (hkh ▸ hk)
    · have honly (j : Handle) (hj : q.roster.handle? c.id = some j) : j = h :=
        Option.some.inj (hj.symm.trans hlisted)
      exact (hsole.others honly k b hkh hb hbid).1 hk
  · have hnoted : (former.insertNew h c.tree).get? h = some ((former.get? h).getD c.tree) := by
      rw [Keyed.get?_insertNew, if_pos rfl]
    refine ⟨_, Keyed.mem_of_get? ((carried_former host h _).drain [] hnoted hrest'),
      fun hfirst => ?_⟩
    -- it was not drawn before, since it had no tree
    cases hformer : former.get? h with
    | none => exact hfirst
    | some before =>
        obtain ⟨w, hw⟩ := Option.ne_none_iff_exists'.mp
          (hturn.former (hformer ▸ Option.some_ne_none before))
        obtain ⟨-, b, hb, hbtree⟩ := hturn.drawn w hw
        obtain rfl := Option.some.inj (ht.record.symm.trans hb)
        cases hfirst.symm.trans hbtree

/-- **What becomes of a component that is rendered.** On any roster that calls lead to, one that is
live when its turn comes, and is rendered, is live afterwards under its handle and id, with the tree
that it was rendered to last, and is sent whole if this was the first time: unless a failure is left
over from before, which is all that can be in the way where records, ids and handles go together. A
component whose handle was stillborn already is dropped, and nothing is sent of it. -/
theorem kept_of_clear (hr : Reached host.kinds p₀.roster)
    (hq : renderQueue host fuel p₀ = some (.ok patches, p'))
    (ht : Turn host p₀ ds p former h c (.ok t)) (hid : p.roster.handle? c.id = some h) :
    (Clear p₀.roster h c.id → ∃ d u, lastDrawn (drawings host fuel p₀) h = some u ∧
      p'.roster.handle? c.id = some h ∧ p'.roster.get? h = some d ∧ d.id = c.id ∧
      d.retired = false ∧ d.tree = some (u.blank p'.roster.stillborn) ∧
      (c.tree = none →
        patches.get? h = some (.replace (u.blank p'.roster.stillborn).content))) ∧
    (p₀.roster.Arena → p₀.roster.stillborn = [] → Clear p₀.roster h c.id) ∧
    (h ∈ p₀.roster.stillborn → p'.roster.get? h = none ∧ patches.get? h = none) := by
  obtain ⟨formerq, q, r, hd, hpatches, rfl⟩ := renderQueue_ok hq
  obtain ⟨hstillborn, -, hget⟩ := dropStillborn_rest q.roster
  obtain ⟨slots, hslots⟩ := patches_rest formerq q.roster.dropStillborn
  rw [hpatches] at hslots
  change r = _ at hslots
  have htables : formerq.Sorted :=
    (carried_tables host).drain [] (p := p₀) List.Pairwise.nil hd
  have hcompared := compared_patches (Keyed.nodup_keys htables) hpatches
  have hborn : (r.keepTrees formerq).stillborn = q.roster.stillborn := by
    rw [hslots]
    exact hstillborn
  refine ⟨fun hclear => ?_, fun harena hnone => harena.clear hnone fun k hk => ?_, fun hin => ?_⟩
  · obtain ⟨⟨d, u, hd', hdid, hlive, htree, hu⟩, hout, hhandle, ⟨before, hbefore, hfirst⟩⟩ :=
      ht.drawn hr hclear hid hd
    have hdropped : q.roster.dropStillborn.get? h = some d := by rw [hget, if_neg hout, hd']
    have hrecord := hcompared.records h
    rw [if_pos (List.mem_map_of_mem (f := Prod.fst) hbefore), hdropped, hstillborn] at hrecord
    refine ⟨blanked q.roster.stillborn d, u, hu, ?_, hrecord, hdid, hlive, ?_, fun hnone => ?_⟩
    · rw [hslots]
      exact hhandle
    · rw [hborn, blanked, htree]
      rfl
    · obtain ⟨patch, hpatch, hsent⟩ := hcompared.complete h before d u hbefore hdropped htree
      rw [hfirst hnone] at hpatch
      obtain rfl := Tree.eq_replace_of_patchFrom hpatch
      rw [hborn, ← hstillborn]
      refine Keyed.get?_of_mem ((Keyed.nodup_keys htables).sublist hcompared.keys) ?_
      exact hsent.resolve_left Bool.false_ne_true
  · have hk : p.roster.handle? c.id = some k := (carried_handle? host k c.id).drains hk ht.drains
    exact Option.some.inj (hk.symm.trans hid)
  · have hin' : h ∈ q.roster.stillborn := (carried_stillborn host h).drain [] hin hd
    have hdropped : q.roster.dropStillborn.get? h = none := by rw [hget, if_pos hin']
    have hrecord := hcompared.records h
    rw [hdropped, Option.map_none, ite_self] at hrecord
    refine ⟨hrecord, Option.eq_none_iff_forall_ne_some.mpr fun patch hpatch => ?_⟩
    obtain ⟨before, b, w, -, hb, -⟩ := hcompared.sound h patch (Keyed.mem_of_get? hpatch)
    cases hdropped.symm.trans hb

/-- The component that waits has failed, with no pass open. Its handle stays noted as stillborn. -/
def failed : Roster := { slots := [none], spare := [0], stillborn := [0] }

theorem renderQueue_waiting : ∃ errors,
    Roster.renderQueue ⟨brittleKinds, {}⟩ 1 ⟨waiting, [], []⟩ =
      some (.ok [], ⟨failed, [], errors⟩) := ⟨_, rfl⟩

/-- Two more components are made then. The first of them is given the handle. -/
def heirs : Roster :=
  ((failed.refer brittleKinds "y" ⟨"good", "good"⟩ [] none).2.refer brittleKinds "z"
    ⟨"good", "good"⟩ [] none).2

theorem reached_heirs : Reached brittleKinds heirs := by
  obtain ⟨config, hcalls⟩ := reached_waiting
  obtain ⟨errors, hq⟩ := renderQueue_waiting
  exact ⟨config, ((hcalls.tail (.inPass (.renderQueue hq))).tail
    (.inPass (.refer "y" ⟨"good", "good"⟩ [] none))).tail
    (.inPass (.refer "z" ⟨"good", "good"⟩ [] none))⟩

/-- The second of them is rendered and stays, under handle 1. -/
theorem heirs_kept : ∃ (p p' : Pass) (ds : List Drawing) (former : FormerTrees) (c d : Component)
    (t u : Tree) (patches : Keyed Handle Patch), Reached brittleKinds heirs ∧
    Roster.renderQueue ⟨brittleKinds, {}⟩ 2 ⟨heirs, [], []⟩ = some (.ok patches, p') ∧
    Turn ⟨brittleKinds, {}⟩ ⟨heirs, [], []⟩ ds p former 1 c (.ok t) ∧
    p.roster.handle? c.id = some 1 ∧ Clear heirs 1 c.id ∧ c.tree = none ∧
    p'.roster.handle? c.id = some 1 ∧ p'.roster.get? 1 = some d ∧ d.tree = some (u.blank [0]) ∧
    patches.get? 1 = some (.replace (u.blank [0]).content) := by
  have hq : Roster.renderQueue ⟨brittleKinds, {}⟩ 2 ⟨heirs, [], []⟩ = some (.ok _, _) := rfl
  have hturn : Turn ⟨brittleKinds, {}⟩ ⟨heirs, [], []⟩ _ _ _ 1 _ (.ok _) :=
    ⟨.step .start rfl rfl, rfl, rfl, rfl, rfl⟩
  have hclear : Clear heirs 1 "z" := by
    refine ⟨by decide, fun hin => (by cases hin), fun k d hk hd hid => ?_⟩
    -- the other record has another id
    have hlt : k < 2 := lt_of_get? hd
    rcases Nat.le_one_iff_eq_zero_or_eq_one.mp (Nat.le_of_lt_succ hlt) with rfl | rfl
    · have hother : (heirs.get? 0).map Component.id = some "y" := rfl
      rw [hd, Option.map_some, hid] at hother
      exact absurd (Option.some.inj hother) (by decide)
    · exact absurd rfl hk
  obtain ⟨d, u, -, hhandle, hget, -, -, htree, hpatch⟩ :=
    (kept_of_clear reached_heirs hq hturn rfl).1 hclear
  exact ⟨_, _, _, _, _, d, _, u, _, reached_heirs, hq, hturn, rfl, hclear, rfl, hhandle, hget,
    htree, hpatch rfl⟩

/-- The first of them is rendered as well, and dropped. -/
theorem heirs_dropped : ∃ (p p' : Pass) (ds : List Drawing) (former : FormerTrees) (c : Component)
    (t : Tree) (patches : Keyed Handle Patch), Reached brittleKinds heirs ∧
    Roster.renderQueue ⟨brittleKinds, {}⟩ 2 ⟨heirs, [], []⟩ = some (.ok patches, p') ∧
    Turn ⟨brittleKinds, {}⟩ ⟨heirs, [], []⟩ ds p former 0 c (.ok t) ∧
    p.roster.handle? c.id = some 0 ∧ c.tree = none ∧
    p'.roster.handle? c.id = none ∧ p'.roster.get? 0 = none ∧ patches.get? 0 = none := by
  have hq : Roster.renderQueue ⟨brittleKinds, {}⟩ 2 ⟨heirs, [], []⟩ = some (.ok _, _) := rfl
  have hturn : Turn ⟨brittleKinds, {}⟩ ⟨heirs, [], []⟩ [] _ _ 0 _ (.ok _) :=
    ⟨.start, rfl, rfl, rfl, rfl⟩
  exact ⟨_, _, _, _, _, _, _, reached_heirs, hq, hturn, rfl, rfl, rfl, rfl, rfl⟩

end ViewSync.Roster
