import ViewSync.Pass

/-!
# Reasoning about steps of a pass

A step *yields* a property of its results and keeps an invariant of what the pass writes to. The
invariant is kept whether the step fails or not, since what a failing step wrote stays written; the
property is one of results only. Steps that are put together from others are treated by their parts.
-/

namespace ViewSync.Pass

variable {α β : Type}

/-! ## Running steps -/

theorem run_bind (x : PassM α) (f : α → PassM β) (p : Pass) :
    (x >>= f).run p =
      match x.run p with
      | (.ok a, p) => (f a).run p
      | (.error e, p) => (.error e, p) := by
  rw [ExceptT.run_bind]
  simp only [bind, StateT.bind]
  cases x.run p with
  | mk r p' => cases r <;> rfl

theorem run_tryCatch (x : PassM α) (f : Error → PassM α) (p : Pass) :
    (tryCatch x f).run p =
      match x.run p with
      | (.ok a, p) => (.ok a, p)
      | (.error e, p) => (f e).run p := by
  change (ExceptT.tryCatch x f).run p = _
  simp only [ExceptT.tryCatch, ExceptT.run, ExceptT.mk, bind, StateT.bind]
  cases x p with
  | mk r p' => cases r <;> rfl

/-! ## What a step yields -/

/-- A step keeps an invariant of the pass, and its results have a property. -/
def Yields (P : Pass → Prop) (x : PassM α) (Q : α → Prop) : Prop :=
  ∀ p, P p → P (x.run p).2 ∧ ∀ a, (x.run p).1 = .ok a → Q a

variable {P : Pass → Prop} {Q : α → Prop} {R : β → Prop}

namespace Yields

theorem pure {a : α} (h : Q a) : Yields P (pure a) Q := by
  intro p hp
  refine ⟨hp, fun b hb => ?_⟩
  obtain rfl : a = b := Except.ok.inj hb
  exact h

theorem throw (e : Error) : Yields P (throw e : PassM α) Q :=
  fun _ hp => ⟨hp, fun _ h => by cases h⟩

theorem ofExcept {x : Except Error α} (h : ∀ a, x = .ok a → Q a) : Yields P (ofExcept x) Q :=
  fun _ hp => ⟨hp, h⟩

theorem bind {x : PassM α} {f : α → PassM β} (hx : Yields P x Q)
    (hf : ∀ a, Q a → Yields P (f a) R) : Yields P (x >>= f) R := by
  intro p hp
  obtain ⟨hkeep, hres⟩ := hx p hp
  rw [run_bind]
  cases h : x.run p with
  | mk r p' =>
      rw [h] at hkeep hres
      cases r with
      | ok a => exact hf a (hres a rfl) p' hkeep
      | error e => exact ⟨hkeep, fun _ h => by cases h⟩

/-- A callback comes first, and writes nothing. -/
theorem ofExcept_bind {x : Except Error α} {f : α → PassM β}
    (hf : ∀ a, x = .ok a → Yields P (f a) R) : Yields P (Pass.ofExcept x >>= f) R :=
  bind (ofExcept (Q := fun a => x = .ok a) fun _ ha => ha) hf

theorem mono {x : PassM α} {Q' : α → Prop} (hx : Yields P x Q) (h : ∀ a, Q a → Q' a) :
    Yields P x Q' :=
  fun p hp => ⟨(hx p hp).1, fun a ha => h a ((hx p hp).2 a ha)⟩

theorem tryCatch {x : PassM α} {f : Error → PassM α} (hx : Yields P x Q)
    (hf : ∀ e, Yields P (f e) Q) : Yields P (tryCatch x f) Q := by
  intro p hp
  obtain ⟨hkeep, hres⟩ := hx p hp
  rw [run_tryCatch]
  cases h : x.run p with
  | mk r p' =>
      rw [h] at hkeep hres
      cases r with
      | ok a => exact ⟨hkeep, hres⟩
      | error e => exact hf e p' hkeep

theorem modifyGet {f : Pass → α × Pass} (h : ∀ p, P p → P (f p).2 ∧ Q (f p).1) :
    Yields P (modifyGet f : PassM α) Q := by
  intro p hp
  refine ⟨(h p hp).1, fun a ha => ?_⟩
  obtain rfl : (f p).1 = a := Except.ok.inj ha
  exact (h p hp).2

theorem modify {f : Pass → Pass} (h : ∀ p, P p → P (f p)) :
    Yields P (modify f : PassM PUnit) fun _ => True :=
  modifyGet fun p hp => ⟨h p hp, trivial⟩

theorem forM {f : β → PassM PUnit} (l : List β) (h : ∀ b ∈ l, Yields P (f b) fun _ => True) :
    Yields P (l.forM f) fun _ => True := by
  induction l with
  | nil => exact pure trivial
  | cons b l ih =>
      change Yields P (f b >>= fun _ => l.forM f) _
      exact bind (h b List.mem_cons_self) fun _ _ => ih fun c hc => h c (List.mem_cons_of_mem _ hc)

theorem mapM {f : β → PassM α} (l : List β) (h : ∀ b ∈ l, Yields P (f b) Q) :
    Yields P (l.mapM f) fun as => as.length = l.length ∧ ∀ a ∈ as, Q a := by
  induction l with
  | nil => exact pure (by simp)
  | cons b l ih =>
      rw [List.mapM_cons]
      refine bind (h b List.mem_cons_self) fun a ha => ?_
      refine bind (ih fun c hc => h c (List.mem_cons_of_mem _ hc)) fun as has => ?_
      exact pure ⟨by simp [has.1], List.forall_mem_cons.mpr ⟨ha, has.2⟩⟩

end Yields

end ViewSync.Pass
