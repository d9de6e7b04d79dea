import ViewSync.Proofs.Roster.Redrawing

/-!
# The patches of a pass

Once the queue is drained, components that are stillborn are dropped, and each rendered component is
compared with its former tree. What that does to the records, and what is in the list of patches, is
settled entry by entry.
-/

namespace ViewSync.Roster

/-! ## Dropped components -/

theorem drop_rest (r : Roster) (h : Handle) :
    (r.drop h).stillborn = r.stillborn ∧ (r.drop h).queue = r.queue ∧
      ∀ k, (r.drop h).get? k = if k = h then none else r.get? k := by
  cases hc : r.get? h with
  | none =>
      have hskip : r.drop h = r := by
        unfold drop
        rw [hc]
      rw [hskip]
      refine ⟨rfl, rfl, fun k => ?_⟩
      split
      · next hk => rw [hk, hc]
      · rfl
  | some c =>
      refine ⟨?_, ?_, get?_drop hc⟩
      · rw [drop_of_get? hc]
        rfl
      · rw [drop_of_get? hc]
        rfl

theorem drop_all_rest (hs : List Handle) (r : Roster) :
    (hs.foldl drop r).stillborn = r.stillborn ∧ (hs.foldl drop r).queue = r.queue ∧
      ∀ k, (hs.foldl drop r).get? k = if k ∈ hs then none else r.get? k := by
  induction hs generalizing r with
  | nil => exact ⟨rfl, rfl, fun _ => by simp⟩
  | cons h hs ih =>
      obtain ⟨hstillborn, hqueue, hget⟩ := drop_rest r h
      obtain ⟨hstillborn', hqueue', hget'⟩ := ih (r.drop h)
      refine ⟨hstillborn'.trans hstillborn, hqueue'.trans hqueue, fun k => ?_⟩
      rw [List.foldl_cons, hget', hget]
      by_cases hk : k = h
      · simp [hk]
      · simp [hk]

theorem dropStillborn_rest (r : Roster) :
    r.dropStillborn.stillborn = r.stillborn ∧ r.dropStillborn.queue = r.queue ∧
      ∀ k, r.dropStillborn.get? k = if k ∈ r.stillborn then none else r.get? k :=
  drop_all_rest r.stillborn r

/-- What is dropped is not seen any more, and nothing else changes there. -/
theorem mem_seen_drop_all (hs : List Handle) (r : Roster) (k : Handle) :
    (k ∈ (hs.foldl drop r).seen → k ∈ r.seen) ∧
      (k ∈ r.seen → k ∉ hs → k ∈ (hs.foldl drop r).seen) := by
  induction hs generalizing r with
  | nil => exact ⟨fun hk => hk, fun hk _ => hk⟩
  | cons h hs ih =>
      have hone : (k ∈ (r.drop h).seen → k ∈ r.seen) ∧
          (k ∈ r.seen → k ≠ h → k ∈ (r.drop h).seen) := by
        cases hc : r.get? h with
        | none =>
            unfold drop
            rw [hc]
            exact ⟨fun hk => hk, fun hk _ => hk⟩
        | some c =>
            rw [drop_of_get? hc]
            exact ⟨fun hk => (KeySet.mem_erase.mp hk).1,
              fun hk hne => KeySet.mem_erase.mpr ⟨hk, hne⟩⟩
      refine ⟨fun hk => hone.1 ((ih _).1 hk), fun hk hout => (ih _).2 (hone.2 hk ?_) ?_⟩
      · exact fun heq => hout (heq ▸ List.mem_cons_self)
      · exact fun hin => hout (List.mem_cons_of_mem _ hin)

/-! ## Patches -/

/-- The record of a component whose tree was compared. -/
def blanked (gone : List Handle) (c : Component) : Component :=
  { c with tree := c.tree.map (Tree.blank gone) }

theorem blanked_of_none (gone : List Handle) {c : Component} (h : c.tree = none) :
    blanked gone c = c := by
  obtain ⟨⟩ := c
  subst h
  rfl

/-- Comparing trees changes records only. -/
theorem patches_rest (former : FormerTrees) (r : Roster) :
    ∃ slots, (r.patches former).2 = { r with slots } := by
  induction former generalizing r with
  | nil => exact ⟨r.slots, rfl⟩
  | cons e former ih =>
      unfold patches
      split
      · split
        · exact ih r
        · dsimp only
          split
          · exact ⟨_, rfl⟩
          · exact ih (r.put e.1 _)
      · exact ih r

/-- What comparing trees with former ones comes to. -/
structure Compared (r r' : Roster) (former : FormerTrees) (ps : Keyed Handle Patch) : Prop where
  /-- The patches are for components with former trees, in that order. -/
  keys : (ps.map Prod.fst).Sublist (former.map Prod.fst)
  /-- The queue is as it was. -/
  queue : r'.queue = r.queue
  /-- Trees that were compared were blanked, and nothing else has changed. -/
  records : ∀ k, r'.get? k =
    if k ∈ former.map Prod.fst then (r.get? k).map (blanked r.stillborn) else r.get? k
  /-- Every tree was compared, and what there is to say of it is said. -/
  complete : ∀ h before c t, (h, before) ∈ former → r.get? h = some c → c.tree = some t →
    ∃ p, Tree.patchFrom .nowhere before (t.blank r.stillborn) = .ok p ∧
      (p.isEmpty = true ∨ (h, p) ∈ ps)
  /-- And nothing else. -/
  sound : ∀ h p, (h, p) ∈ ps → ∃ before c t, (h, before) ∈ former ∧ r.get? h = some c ∧
    c.tree = some t ∧ Tree.patchFrom .nowhere before (t.blank r.stillborn) = .ok p

theorem Compared.skip {h : Handle} {before : Option Tree} {former : FormerTrees} {r r' : Roster}
    {ps : Keyed Handle Patch} (hc : Compared r r' former ps) (hnew : h ∉ former.map Prod.fst)
    (htree : r.tree? h = none) : Compared r r' ((h, before) :: former) ps where
  keys := hc.keys.cons h
  queue := hc.queue
  records k := by
    rw [hc.records k]
    simp only [List.map_cons, List.mem_cons]
    by_cases hk : k = h
    · subst hk
      rw [if_neg hnew, if_pos (.inl rfl)]
      cases hr : r.get? k with
      | none => rfl
      | some c =>
          have hnone : c.tree = none := (tree?_of_get? hr).symm.trans htree
          rw [Option.map_some, blanked_of_none _ hnone]
    · simp only [hk, false_or]
  complete k b c t hmem hget ht := by
    rcases List.mem_cons.mp hmem with heq | hmem
    · obtain ⟨rfl, rfl⟩ := Prod.mk.inj heq
      rw [tree?_of_get? hget, ht] at htree
      cases htree
    · exact hc.complete k b c t hmem hget ht
  sound k p hp := by
    obtain ⟨b, c, t, hmem, hrest⟩ := hc.sound k p hp
    exact ⟨b, c, t, List.mem_cons_of_mem _ hmem, hrest⟩

theorem Compared.cons {h : Handle} {before : Option Tree} {former : FormerTrees} {r r' : Roster}
    {ps : Keyed Handle Patch} {c : Component} {t : Tree} {p : Patch} (hget : r.get? h = some c)
    (ht : c.tree = some t) (hp : Tree.patchFrom .nowhere before (t.blank r.stillborn) = .ok p)
    (hnew : h ∉ former.map Prod.fst)
    (hc : Compared (r.put h { c with tree := some (t.blank r.stillborn) }) r' former ps) :
    Compared r r' ((h, before) :: former) (if p.isEmpty then ps else (h, p) :: ps) := by
  have hput := get?_put (lt_of_get? hget) { c with tree := some (t.blank r.stillborn) }
  -- handles come once among the former trees, so the rest finds its records as they were
  have hother {k : Handle} {b : Option Tree} (hmem : (k, b) ∈ former) : k ≠ h := fun heq =>
    hnew (heq ▸ List.mem_map_of_mem (f := Prod.fst) hmem)
  have hsub (e : Handle × Patch) (he : e ∈ ps) : e ∈ if p.isEmpty then ps else (h, p) :: ps := by
    split
    · exact he
    · exact List.mem_cons_of_mem _ he
  refine ⟨?_, hc.queue, fun k => ?_, fun k b d u hmem hd hu => ?_, fun k q hq => ?_⟩
  · split
    · exact hc.keys.cons h
    · exact hc.keys.cons_cons h
  · have hrec := hc.records k
    rw [hput] at hrec
    rw [hrec]
    simp only [List.map_cons, List.mem_cons]
    by_cases hk : k = h
    · subst hk
      simp [hnew, hget, blanked, ht]
    · simp only [hk, if_false, false_or]
      rfl
  · rcases List.mem_cons.mp hmem with heq | hmem
    · obtain ⟨rfl, rfl⟩ := Prod.mk.inj heq
      rw [hget] at hd
      obtain rfl := Option.some.inj hd
      rw [ht] at hu
      obtain rfl := Option.some.inj hu
      refine ⟨p, hp, ?_⟩
      cases hempty : p.isEmpty with
      | true => exact .inl rfl
      | false => exact .inr List.mem_cons_self
    · have hd' : (r.put h { c with tree := some (t.blank r.stillborn) }).get? k = some d := by
        rw [hput, if_neg (hother hmem), hd]
      obtain ⟨q, hq, hsent⟩ := hc.complete k b d u hmem hd' hu
      exact ⟨q, hq, hsent.imp_right (hsub _)⟩
  · have hcase : (k, q) = (h, p) ∨ (k, q) ∈ ps := by
      split at hq
      · exact .inr hq
      · exact List.mem_cons.mp hq
    rcases hcase with heq | hq
    · obtain ⟨rfl, rfl⟩ := Prod.mk.inj heq
      exact ⟨before, c, t, List.mem_cons_self, hget, ht, hp⟩
    · obtain ⟨b, d, u, hmem, hd, hu, hpatch⟩ := hc.sound k q hq
      rw [hput, if_neg (hother hmem)] at hd
      exact ⟨b, d, u, List.mem_cons_of_mem _ hmem, hd, hu, hpatch⟩

/-- **Each rendered component is compared with its former tree, and with nothing else.** -/
theorem compared_patches {former : FormerTrees} {r r' : Roster} {ps : Keyed Handle Patch}
    (hnodup : (former.map Prod.fst).Nodup) (h : r.patches former = (.ok ps, r')) :
    Compared r r' former ps := by
  induction former generalizing r ps with
  | nil =>
      obtain ⟨hps, rfl⟩ := Prod.mk.inj h
      obtain rfl := Except.ok.inj hps
      refine ⟨List.Sublist.slnil, rfl, fun _ => rfl, ?_, ?_⟩
      · intro _ _ _ _ hmem
        cases hmem
      · intro _ _ hmem
        cases hmem
  | cons e former ih =>
      obtain ⟨k, before⟩ := e
      obtain ⟨hnew, hnodup⟩ := List.nodup_cons.mp hnodup
      unfold patches at h
      cases hget : r.get? k with
      | none =>
          rw [hget] at h
          exact (ih hnodup h).skip hnew (tree?_of_none hget)
      | some c =>
          rw [hget] at h
          cases ht : c.tree with
          | none =>
              simp only [ht] at h
              exact (ih hnodup h).skip hnew ((tree?_of_get? hget).trans ht)
          | some t =>
              simp only [ht, blankStillborn] at h
              split at h
              · cases h
              · next p hp =>
                  generalize hrest : (r.put k _).patches former = rest at h
                  obtain ⟨result, r₁⟩ := rest
                  obtain ⟨hps, rfl⟩ := Prod.mk.inj h
                  cases result with
                  | error e => cases hps
                  | ok qs =>
                      obtain rfl := Except.ok.inj hps
                      exact (ih hnodup hrest).cons hget ht hp hnew

/-! ## What becomes of a component -/

/-- What a pass that went well has done to the record of a handle, after draining. -/
inductive Fate (r₀ r r' : Roster) (former : FormerTrees) (h : Handle) : Prop where
  | dropped : r'.get? h = none → r₀.tree? h = none → Fate r₀ r r' former h
  | untouched : h ∉ r.stillborn → r'.get? h = r.get? h → r.tree? h = r₀.tree? h →
      Fate r₀ r r' former h
  | redrawn {c : Component} {t : Tree} : (h, r₀.tree? h) ∈ former → h ∉ r.stillborn →
      r.get? h = some c → c.tree = some t →
      r'.get? h = some { c with tree := some (t.blank r.stillborn) } → Fate r₀ r r' former h

theorem fate {S : Shape → Prop} {r₀ r r' : Roster} {former : FormerTrees} {ps : Keyed Handle Patch}
    (hd : Redrawn S r₀ none r former) (hc : Compared r.dropStillborn r' former ps) (h : Handle) :
    Fate r₀ r r' former h := by
  obtain ⟨hstillborn, -, hget⟩ := dropStillborn_rest r
  have hrec := hc.records h
  rw [hstillborn, hget] at hrec
  by_cases hs : h ∈ r.stillborn
  · -- stillborn: the record is dropped, and there was no tree before the pass
    refine .dropped ?_ (hd.stillborn h hs)
    rw [hrec]
    simp [hs]
  · rw [if_neg hs] at hrec
    by_cases hk : h ∈ former.map Prod.fst
    · rw [if_pos hk] at hrec
      obtain ⟨e, he, heq⟩ := List.mem_map.mp hk
      obtain ⟨k, before⟩ := e
      obtain rfl : k = h := heq
      have hf := Keyed.get?_of_mem (Keyed.nodup_keys hd.sorted) he
      obtain ⟨hbefore, htree⟩ := hd.noted k before hf
      cases hr : r.get? k with
      | none => exact absurd (tree?_of_none hr) htree
      | some c =>
          rw [tree?_of_get? hr] at htree
          obtain ⟨t, ht⟩ := Option.ne_none_iff_exists'.mp htree
          refine .redrawn (hbefore ▸ he) hs hr ht ?_
          rw [hrec, hr, Option.map_some, blanked, ht, Option.map_some]
    · rw [if_neg hk] at hrec
      exact .untouched hs hrec (hd.kept h (Keyed.get?_of_not_mem_keys hk))

end ViewSync.Roster
