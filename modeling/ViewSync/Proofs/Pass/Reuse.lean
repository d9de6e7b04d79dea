import ViewSync.Proofs.Roster.Calm

/-!
# The tree of another template

Templates of one shape count as the same, whatever their callbacks are. So a template may be
rendered against a tree that another one left, and what is kept of that tree are values of the other
one. This is the same as rendering from scratch where the tree is current for the new template, and
for a template that says what it reads it is so nowhere else.
-/

namespace ViewSync.Pass

open ViewSync.Tree

variable {host : Host} {owner : Option StreamEntry}

/-- A tree that fits is of no use, or its fillings fit the template. -/
theorem keptFillings_ok (t : Template) {before : Option Tree} (h : ∀ b, before = some b → b.Fits) :
    ∃ fs, keptFillings t before = .ok fs ∧ (fs ≠ [] → t.shape.Fits fs) := by
  cases before with
  | none => exact ⟨[], rfl, fun hne => absurd rfl hne⟩
  | some tree =>
      obtain ⟨shape, fs⟩ := tree
      by_cases hshape : shape = t.shape
      · subst hshape
        exact ⟨fs, Roster.keptFillings_of_fits (h _ rfl), fun _ => h _ rfl⟩
      · exact ⟨[], if_neg hshape, fun hne => absurd rfl hne⟩

/-- What is rendered has the shape of the template, and fits if what was there before does. -/
theorem template_ok {s : Scope} {t : Template} {before : Option Tree} {p : Pass} {tree : Tree}
    (h : ((template host s t before).run p).1 = .ok tree) :
    tree.shape = t.shape ∧ ((∀ b, before = some b → b.Fits) → tree.Fits) := by
  have hclosed : Closed host.kinds (fun _ => True) fun _ => True :=
    ⟨fun _ _ _ _ _ _ _ => trivial, fun _ _ _ => trivial, fun _ _ _ => trivial,
      fun _ _ _ => trivial, fun _ _ _ => trivial, fun _ _ _ _ _ _ _ => trivial, fun _ => trivial⟩
  exact (yields_template hclosed (Scope.all_true _) t.makes_true before p trivial).2 tree h

/-- What is rendered fits, if what was there before does. -/
theorem fits_of_template {s : Scope} {t : Template} {before : Option Tree} {p : Pass} {tree : Tree}
    (h : ((template host s t before).run p).1 = .ok tree)
    (hbefore : ∀ b, before = some b → b.Fits) : tree.Fits :=
  (template_ok h).2 hbefore

/-! ## Without change tracking -/

mutual

/-- Without change tracking, what was there before plays no part. -/
theorem holes_off (s : Scope) : ∀ (t : Template) (before : List Filling),
    (before ≠ [] → t.shape.Fits before) →
    holes (host.tracking false) owner s t before = holes (host.tracking false) owner s t []
  | .text _, _, _ => by
      unfold holes
      rfl
  | .hole _ _ _, [], _ => rfl
  | .hole _ h rest, f :: fs, hfits => by
      obtain ⟨hf, hfs⟩ : h.shape.Fits f ∧ rest.shape.Fits fs := by
        simpa [Template.shape, Shape.Fits] using hfits (List.cons_ne_nil f fs)
      unfold holes
      rw [List.head?_cons, List.tail_cons, hole_off s h f hf, holes_off s rest fs fun _ => hfs]
      rfl

theorem hole_off (s : Scope) : ∀ (h : Hole) (f : Filling), h.shape.Fits f →
    hole (host.tracking false) owner s h (some f) = hole (host.tracking false) owner s h none
  | .value reads eval, f, _ => by rw [value_off, value_off]
  | .choice reads choose branches, f, hfits => by
      unfold hole
      dsimp only
      rw [branchOf_off, branchOf_off]
      congr 1
      funext b
      cases b with
      | none => rfl
      | some i =>
          have hbranch : ∀ t, treeOfBranch (some i) (branchBefore (some f)) = some t → t.Fits := by
            intro t ht
            obtain rfl := Option.some.inj (treeOfBranch_some ht)
            exact (Shape.fitsAt_iff.mp hfits).2
          dsimp only
          rw [branch_off s branches i _ hbranch]
          rfl
  | .loop reads items binding body, f, _ => by
      unfold hole
      rw [keptEntries_off, keptEntries_off]
  | .stream .., _, _ => by
      unfold hole
      rfl
  | .component .., _, _ => by
      unfold hole
      rfl

theorem branch_off (s : Scope) {chosen count : Nat} : ∀ (bs : Branches) (n : Nat)
    (before : Option Tree), (∀ t, before = some t → t.Fits) →
    branch (host.tracking false) owner s before chosen count bs n =
      branch (host.tracking false) owner s none chosen count bs n
  | .none, _, _, _ => by
      unfold branch
      rfl
  | .more t _, 0, before, hfits => by
      unfold branch
      obtain ⟨fs, hok, hfs⟩ := keptFillings_ok t hfits
      rw [hok, ofExcept_ok_bind, holes_off s t fs hfs]
      rfl
  | .more _ rest, n + 1, before, hfits => by
      unfold branch
      exact branch_off s rest n before hfits

end

/-- Without change tracking a template is always rendered from scratch. -/
theorem template_off (s : Scope) (t : Template) {before : Option Tree}
    (hfits : ∀ b, before = some b → b.Fits) :
    template (host.tracking false) s t before = template (host.tracking false) s t none := by
  obtain ⟨fs, hok, hfs⟩ := keptFillings_ok t hfits
  unfold template
  rw [hok, ofExcept_ok_bind, holes_off s t fs hfs]
  rfl

/-! ## When nothing was written -/

theorem mayKeep_of_ne {s : Scope} (hs : s.assigns.before = []) {reads : Reads}
    (hr : reads ≠ .anything) : mayKeep (host.tracking true) s reads = true := by
  rw [mayKeep_settled _ hs]
  exact decide_eq_true hr

mutual

/-- Where a template says what it reads, fillings that fit are kept while nothing is written. -/
theorem holes_kept {s : Scope} (hs : s.assigns.before = []) : ∀ (t : Template)
    (fs : List Filling), t.reads ≠ .anything → t.shape.Fits fs →
    holes (host.tracking true) owner s t fs = pure fs
  | .text _, fs, _, hfits => by
      obtain rfl : fs = [] := by simpa [Template.shape, Shape.Fits] using hfits
      unfold holes
      rfl
  | .hole _ h rest, [], _, hfits => absurd hfits (by simp [Template.shape, Shape.Fits])
  | .hole _ h rest, f :: fs, hr, hfits => by
      obtain ⟨hone, hrest⟩ := Template.reads_hole_ne.mp hr
      obtain ⟨hf, hfs⟩ : h.shape.Fits f ∧ rest.shape.Fits fs := by
        simpa [Template.shape, Shape.Fits] using hfits
      unfold holes
      rw [List.head?_cons, List.tail_cons, hole_kept hs h f hone hf,
        holes_kept hs rest fs hrest hfs]
      rfl

theorem hole_kept {s : Scope} (hs : s.assigns.before = []) : ∀ (h : Hole) (f : Filling),
    h.reads ≠ .anything → h.shape.Fits f →
    hole (host.tracking true) owner s h (some f) = pure f
  | .value reads eval, .text text, hr, _ => by
      have hkeep : keptText (host.tracking true) s reads (some (.text text)) = some text :=
        if_pos (mayKeep_of_ne hs hr)
      unfold hole
      rw [hkeep]
  | .choice reads choose branches, .choice b tree, hr, hfits => by
      obtain ⟨hown, hbranches⟩ := Reads.joinAll_ne_anything.mp hr
      have hkeep : branchOf (host.tracking true) s reads choose
          (branchBefore (some (.choice b tree))) = .ok b := if_pos (mayKeep_of_ne hs hown)
      unfold hole
      dsimp only
      rw [hkeep, ofExcept_ok_bind]
      cases b with
      | none =>
          cases tree with
          | none => rfl
          | some t => exact absurd hfits (by simp [Hole.shape, HoleShape.Fits])
      | some i =>
          cases tree with
          | none => exact absurd hfits (by simp [Hole.shape, HoleShape.Fits])
          | some t =>
              have hbefore : treeOfBranch (some i)
                  (branchBefore (some (.choice (some i) (some t)))) = some t := if_pos rfl
              dsimp only
              rw [hbefore, branch_kept hs branches i t hbranches hfits]
              rfl
  | .loop reads items binding body, .loop shape entries, hr, hfits => by
      have hown : reads ≠ .anything := (Reads.join_ne_anything.mp hr).1
      have hbody : body.reads ≠ .anything := (Reads.join_ne_anything.mp hr).2
      obtain ⟨hhandles, -⟩ := inert_fitsHole _ hr _ hfits
      obtain ⟨rfl, -⟩ := hfits
      have hkeep : keptEntries (host.tracking true) s reads body
          (some (.loop body.shape entries)) = some entries := by
        refine if_pos ?_
        rw [decide_eq_true rfl, mayKeep_of_ne hs hown, mayKeep_of_ne hs hbody]
        rfl
      unfold hole
      rw [hkeep]
      dsimp only
      rw [forM_followTree hhandles]
      rfl
  | .stream .., _, hr, _ => absurd rfl hr
  | .component .., _, hr, _ => absurd rfl hr

theorem branch_kept {s : Scope} (hs : s.assigns.before = []) {chosen count : Nat} :
    ∀ (bs : Branches) (n : Nat) (t : Tree), (∀ q ∈ bs.reads, q ≠ .anything) →
    Shape.FitsAt bs.shapes n t →
    branch (host.tracking true) owner s (some t) chosen count bs n = pure t
  | .more t _, 0, .mk shape fs, hr, hfits => by
      obtain ⟨hshape, hfs⟩ : shape = t.shape ∧ t.shape.Fits fs := hfits
      subst hshape
      unfold branch
      rw [Roster.keptFillings_of_fits hfs, ofExcept_ok_bind,
        holes_kept hs t fs (hr _ List.mem_cons_self) hfs]
      rfl
  | .more _ rest, n + 1, t, hr, hfits => by
      unfold branch
      exact branch_kept hs rest n t (fun q hq => hr q (List.mem_cons_of_mem _ hq)) hfits

end

theorem template_kept {s : Scope} (hs : s.assigns.before = []) {t : Template}
    (hr : t.reads ≠ .anything) {tree : Tree} (hshape : tree.shape = t.shape) (hfits : tree.Fits) :
    template (host.tracking true) s t (some tree) = pure tree := by
  obtain ⟨shape, fs⟩ := tree
  obtain rfl : shape = t.shape := hshape
  have hfits : t.shape.Fits fs := hfits
  unfold template
  rw [Roster.keptFillings_of_fits hfits, ofExcept_ok_bind, holes_kept hs t fs hr hfits]
  rfl

/-! ## Rendering over any tree -/

/-- What is rendered from any tree that is current is what is rendered from scratch. -/
theorem template_of_current {base a : Assigns} (hsince : Assigns.Since base a) {t : Template}
    (hr : t.ReadsOnly []) {tree : Tree} (hfits : tree.Fits)
    (hc : t.Current host.config.escapeHtml (Scope.ofAssigns base) tree) :
    template host (Scope.ofAssigns a) t (some tree) =
      template host (Scope.ofAssigns a) t none := by
  have hoff : template (host.tracking false) (Scope.ofAssigns a) t (some tree) =
      template (host.tracking false) (Scope.ofAssigns a) t none :=
    template_off _ t (by rintro _ ⟨⟩; exact hfits)
  have htracking : host.tracking host.config.changeTracking = host := rfl
  rw [← htracking]
  cases host.config.changeTracking with
  | false => exact hoff
  | true =>
      have hon : template (host.tracking true) (Scope.ofAssigns a) t (some tree) =
          template (host.tracking false) (Scope.ofAssigns a) t (some tree) :=
        template_tracking hsince hr (by rintro _ ⟨⟩; exact hc)
      exact (hon.trans hoff).trans (template_tracking hsince hr (by rintro _ ⟨⟩)).symm

/-- **Reuse across templates.** A template is rendered over the tree that another one left, with the
record of writes cleared since. Where the tree is current for the new template, as it is wherever
the shapes differ, rendering over it is rendering from scratch, whatever is written in between. A
template that says what it reads cannot do with less: if both ways agree before anything is written,
the tree is current for it. -/
theorem template_over {old new : Template} (hreads : new.ReadsOnly []) {a : Assigns}
    (hequal : a.equal = Value.same) (hplain : a.All Value.Plain) {before : Option Tree}
    (hbefore : ∀ b, before = some b → b.Fits) {p p' : Pass} {tree : Tree}
    (hrun : (template host (Scope.ofAssigns a) old before).run p = (.ok tree, p')) :
    (new.Current host.config.escapeHtml (Scope.ofAssigns a.settled) tree →
      ∀ ws : List Assigns.Write, (∀ w ∈ ws, w.Makes Value.Plain) →
        template host (Scope.ofAssigns (ws.foldl Assigns.write a.settled)) new (some tree) =
          template host (Scope.ofAssigns (ws.foldl Assigns.write a.settled)) new none) ∧
    (host.config.changeTracking = true → new.reads ≠ .anything →
      template host (Scope.ofAssigns a.settled) new (some tree) =
        template host (Scope.ofAssigns a.settled) new none →
      new.Current host.config.escapeHtml (Scope.ofAssigns a.settled) tree) := by
  have hfits : tree.Fits := fits_of_template (by rw [hrun]) hbefore
  have hsettled : Assigns.Since a.settled a.settled :=
    ⟨hequal, hplain, fun _ _ => rfl, fun _ _ h => (by cases h), fun _ h => h⟩
  refine ⟨fun hc ws hws => template_of_current (hsettled.writes hws) hreads hfits hc,
    fun htracking hr hsame hshape => ?_⟩
  -- while nothing is written the whole tree is kept, so it is also what comes from scratch
  have hon : host.tracking true = host := by rw [← htracking]; rfl
  have hkept : template (host.tracking true) (Scope.ofAssigns a.settled) new (some tree) =
      pure tree := template_kept rfl hr hshape hfits
  have hfresh : template (host.tracking false) (Scope.ofAssigns a.settled) new none =
      pure tree := by
    rw [← template_tracking hsettled hreads (by rintro _ ⟨⟩), ← hkept, hon]
    exact hsame.symm
  have hyields := current_template host (Scope.ofAssigns a.settled) new none
  rw [hfresh] at hyields
  exact (hyields p trivial).2 tree rfl hshape

section Cards

/-- A card with one value on it. -/
private def cardOf (name : String) : Template :=
  .hole "<p>" (.value (.paths [⟨name, []⟩]) fun s => s.value ⟨name, []⟩) (.text "</p>")

private def cardTree (text : String) : Tree := .mk (cardOf "title").shape [.text text]

private def cardAssigns (title body : String) : Assigns :=
  (Assigns.empty.set "title" (.str title)).set "body" (.str body)

private def cardHost : Host := ⟨fun _ => Kind.ofTemplate (.text ""), { escapeHtml := false }⟩

private def cardPass : Pass := { roster := {} }

private theorem readsOnly_cardOf (name : String) : (cardOf name).ReadsOnly [] :=
  ⟨fun _ _ _ h => h.value (List.mem_singleton.mpr rfl), trivial⟩

private theorem plain_cardAssigns (title body : String) :
    (cardAssigns title body).All Value.Plain :=
  ((Assigns.Since.empty.set "title" (v := .str title) trivial).set "body" (v := .str body)
    trivial).plain

private theorem run_cardOf (title body : String) :
    (template cardHost (Scope.ofAssigns (cardAssigns title body)) (cardOf "title") none).run
      cardPass = (.ok (cardTree title), cardPass) :=
  rfl

/-- The body goes on the card in place of a title that is the same, and is rewritten. -/
theorem card_over :
    let s := Scope.ofAssigns ([Assigns.Write.set "body" (.str "new")].foldl Assigns.write
      (cardAssigns "same" "same").settled)
    template cardHost s (cardOf "body") (some (cardTree "same")) =
      template cardHost s (cardOf "body") none := by
  refine (template_over (readsOnly_cardOf "body") (a := cardAssigns "same" "same") rfl
    (plain_cardAssigns "same" "same") (by rintro _ ⟨⟩) (run_cardOf "same" "same")).1
    (fun _ => ⟨fun _ => rfl, trivial⟩) _ ?_
  exact List.forall_mem_singleton.mpr trivial

/-- **The title stays on the card in place of the body.** Nothing that the new template reads was
written, and so the text is kept that the old one left. -/
theorem card_keeps_title :
    (cardOf "title").ReadsOnly [] ∧ (cardOf "body").ReadsOnly [] ∧
      (cardOf "title").reads ≠ .anything ∧ (cardOf "body").reads ≠ .anything ∧
      (template cardHost (Scope.ofAssigns (cardAssigns "title" "body")) (cardOf "title") none).run
        cardPass = (.ok (cardTree "title"), cardPass) ∧
      let s := Scope.ofAssigns ([Assigns.Write.set "mode" (.str "body")].foldl Assigns.write
        (cardAssigns "title" "body").settled)
      (template cardHost s (cardOf "body") (some (cardTree "title"))).run cardPass =
          (.ok (cardTree "title"), cardPass) ∧
        (template cardHost s (cardOf "body") none).run cardPass =
          (.ok (cardTree "body"), cardPass) ∧
        template cardHost s (cardOf "body") (some (cardTree "title")) ≠
          template cardHost s (cardOf "body") none := by
  refine ⟨readsOnly_cardOf "title", readsOnly_cardOf "body", nofun, nofun,
    run_cardOf "title" "body", rfl, rfl, fun h => ?_⟩
  have hover := congrArg (fun x : PassM Tree => (x.run cardPass).1) h
  have htrees : cardTree "title" = cardTree "body" := Except.ok.inj hover
  simp [cardTree] at htrees

end Cards

end ViewSync.Pass
