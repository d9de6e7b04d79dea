import ViewSync.Proofs.Pass.Keeping

/-!
# What is read covers what is rendered

Two sets of assigns that lead to the same along every path that a template reads cannot be told
apart by rendering it from scratch: the trees are the same, or the failures are, and neither run
writes to the pass. This is what makes it right to keep a whole loop when no path is reported that
its items or its body read.
-/

namespace ViewSync.Pass

variable {host : Host}

/-- Rendering from scratch what says what it reads is a callback that fills it. -/
theorem template_fresh {s : Scope} {t : Template} (hr : t.reads ≠ .anything) :
    template host s t none =
      ofExcept ((t.fill host.config.escapeHtml s).map (Tree.mk t.shape)) := by
  unfold template
  rw [show keptFillings t none = .ok [] from rfl, ofExcept_ok_bind, holes_fresh s t hr]
  cases t.fill host.config.escapeHtml s <;> rfl

/-- **Reads cover what rendering depends on.** Assigns that agree on every path that a template
reads give, beside the same locals, one and the same tree or failure, whatever the pass has come to
so far, and leave the pass as it is. -/
theorem template_of_agrees {t : Template} {ps : List Path} (hreads : t.reads = .paths ps)
    {locals : List (String × Value)} (honly : t.ReadsOnly (locals.map Prod.fst)) {a a' : Assigns}
    (hagree : ∀ p ∈ ps, Assigns.Agrees p a a') :
    ∃ result : Except Error Tree, ∀ p : Pass,
      (template host ⟨a, locals⟩ t none).run p = (result, p) ∧
      (template host ⟨a', locals⟩ t none).run p = (result, p) := by
  have hr : t.reads ≠ .anything := by
    rw [hreads]
    nofun
  have hscopes : t.reads.Agree ⟨a, locals⟩ ⟨a', locals⟩ := by
    rw [hreads]
    exact ⟨rfl, hagree⟩
  have hfill : t.fill host.config.escapeHtml ⟨a, locals⟩ =
      t.fill host.config.escapeHtml ⟨a', locals⟩ := t.fill_congr honly hscopes
  refine ⟨(t.fill host.config.escapeHtml ⟨a, locals⟩).map (Tree.mk t.shape), fun p => ?_⟩
  rw [template_fresh hr, template_fresh hr, hfill]
  exact ⟨rfl, rfl⟩

section Roll

/-- The members of a club by name, and under them who may sign, if it is shown. -/
private def rollPage : Template :=
  .hole "<ul>"
    (.loop (.paths [⟨"members", []⟩]) (fun s => s.list "members") "member"
      (.hole "<li>" (.value (.paths [⟨"member", ["name"]⟩])
        fun s => s.value ⟨"member", ["name"]⟩) (.text "</li>")))
    (.hole "</ul>"
      (.choice (.paths [⟨"signing", []⟩])
        (fun s => (s.get "signing").map fun v => if v.same (.bool true) then some 0 else none)
        (.more (.hole "<p>" (.value (.paths [⟨"chair", ["name"]⟩, ⟨"chair", ["title"]⟩])
          fun s => do
            let name ← s.value ⟨"chair", ["name"]⟩
            let title ← s.value ⟨"chair", ["title"]⟩
            return .arr [title, name]) (.text "</p>")) .none))
      (.text ""))

private def rollReads : List Path :=
  [⟨"members", []⟩, ⟨"member", ["name"]⟩, ⟨"signing", []⟩, ⟨"chair", ["name"]⟩,
    ⟨"chair", ["title"]⟩]

private theorem readsOnly_rollPage : rollPage.ReadsOnly [] := by
  refine ⟨⟨fun s s' _ h => h.list (List.mem_singleton.mpr rfl), ?_, trivial⟩,
    ⟨fun s s' _ h => ?_, ⟨fun s s' _ h => ?_, trivial⟩, trivial⟩, trivial⟩
  · intro s s' _ h
    exact h.value (List.mem_singleton.mpr rfl)
  · show (s.get "signing").map _ = (s'.get "signing").map _
    rw [h.get_name (List.mem_singleton.mpr rfl)]
  · show (s.value _ >>= fun name => s.value _ >>= fun title => _) =
      (s'.value _ >>= fun name => s'.value _ >>= fun title => _)
    rw [h.value (p := ⟨"chair", ["name"]⟩) (by decide),
      h.value (p := ⟨"chair", ["title"]⟩) (by decide)]

/-- The assigns of a club with one member, that differ in the age of its chair, and in an assign
that no path is into. -/
private def rollAssigns (age : Int) (note : String) : Assigns :=
  Assigns.ofFields [
    ("members", .arr [.obj [("name", .str "Ida")]]),
    ("signing", .bool true),
    ("chair", .obj [("age", .int age), ("name", .str "Jo")]),
    ("note", .str note)]

private theorem agrees_rollAssigns (age age' : Int) (note note' : String) :
    ∀ p ∈ rollReads, Assigns.Agrees p (rollAssigns age note) (rollAssigns age' note') := by
  intro p hp
  simp only [rollReads, List.mem_cons, List.not_mem_nil, or_false] at hp
  rcases hp with rfl | rfl | rfl | rfl | rfl <;>
    simp [Assigns.Agrees, rollAssigns, Assigns.ofFields, Assigns.setAll, Assigns.get?_set_self,
      Assigns.get?_set_of_ne, Path.lookup?, Path.descend, Keyed.get?]

private def rollHost : Host := ⟨fun _ => Kind.ofTemplate (.text ""), {}⟩

/-- A birthday of the chair and another note make no difference. -/
theorem roll_of_agrees :
    rollPage.reads = .paths rollReads ∧ rollPage.ReadsOnly [] ∧
      (∀ p ∈ rollReads, Assigns.Agrees p (rollAssigns 40 "a") (rollAssigns 41 "b")) ∧
      ∃ result : Except Error Tree, ∀ p : Pass,
        (template rollHost ⟨rollAssigns 40 "a", []⟩ rollPage none).run p = (result, p) ∧
        (template rollHost ⟨rollAssigns 41 "b", []⟩ rollPage none).run p = (result, p) :=
  ⟨rfl, readsOnly_rollPage, agrees_rollAssigns 40 41 "a" "b",
    template_of_agrees rfl readsOnly_rollPage (agrees_rollAssigns 40 41 "a" "b")⟩

end Roll

end ViewSync.Pass
