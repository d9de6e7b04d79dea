import ViewSync.Proofs.Pass.InStep
import ViewSync.Proofs.Roster.Patches
import ViewSync.Proofs.Roster.Ranks

/-!
# Components whose trees were built

Every tree of a component is one that its kind was rendered to, at some assigns, however often it
was rendered again or blanked since. A pass keeps it so, and while it is so, no tree that a pass
renders against or compares is refused. What is left to end a pass is a failure that a callback
brings up.
-/

namespace ViewSync

variable {host : Host} {had : String → Stream.Flush → Prop} {E : Error → Prop}

/-- The tree of a component is one that its kind is rendered to, whatever its assigns were. -/
def Component.Built (host : Host) (had : String → Stream.Flush → Prop) (c : Component) : Prop :=
  ∀ tree, c.tree = some tree → ∃ a, tree.Built host had ((host.kinds c.kind.key).render a)

theorem Component.Built.fits {c : Component} (hc : c.Built host had) : c.Fits := by
  intro tree htree
  obtain ⟨a, hbuilt⟩ := hc tree htree
  exact hbuilt.fits

namespace Roster

open ViewSync.Pass

variable {p p' : Pass} {r : Roster} {former former' : FormerTrees} {h : Handle}

theorem lasting_built : Lasting (Component.Built host had) := fun _ _ _ hc => hc

/-- A new component has no tree. -/
theorem built_new (kind : KindRef) (id : String) (handle : Handle) (assigns : Assigns)
    (owner : Option StreamEntry) : Component.Built host had { id, handle, kind, assigns, owner } :=
  fun _ ht => by cases ht

/-- What is true in the middle of a pass: it is fair, and the trees of components, those from before
included, are in order. -/
structure Sound (host : Host) (had : String → Stream.Flush → Prop) (p : Pass)
    (former : FormerTrees) : Prop where
  /-- The pass is fair. -/
  fair : p.Fair had
  /-- The trees of components are in order. -/
  built : p.roster.Every (Component.Built host had)
  /-- So are those from before. -/
  former : ∀ e ∈ former, ∀ tree, e.2 = some tree → tree.Fits

/-! ## Settling and comparing -/

/-- Settling notes what is not fatal, and ends the pass with what is. -/
theorem settle_errors (q : Pass) (h : Handle) (c : Component) (former : FormerTrees)
    (result : Except Error Tree) (hq : q.Fair had) :
    (settle q h c former result).2.2.Fair had ∧
      ∀ e, (settle q h c former result).1 = .error e → result = .error e := by
  cases result with
  | ok t => exact ⟨hq.withRoster _, nofun⟩
  | error e =>
      cases he : e.isFatal with
      | false =>
          rw [settle_error he]
          exact ⟨(hq.note he).withRoster _, nofun⟩
      | true =>
          simp only [settle, he, if_true]
          exact ⟨hq.withRoster _, fun e' he' => congrArg Except.error (Except.error.inj he')⟩

/-- The former trees after settling are those from before, and the last tree of the component. -/
theorem mem_former_settle {q : Pass} {c : Component} {result : Except Error Tree}
    {e : Handle × Option Tree} (he : e ∈ (settle q h c former result).2.1) :
    e = (h, c.tree) ∨ e ∈ former := by
  cases result with
  | ok t =>
      change e ∈ former.insertNew h c.tree at he
      unfold Keyed.insertNew at he
      split at he
      · exact .inr he
      · exact Keyed.mem_of_mem_insert he
  | error err =>
      unfold settle at he
      dsimp only at he
      split at he <;> exact .inr he

theorem Every.dropStillborn {P : Component → Prop} (hr : r.Every P) :
    r.dropStillborn.Every P := by
  intro k c hc
  rw [(dropStillborn_rest r).2.2] at hc
  split at hc
  · cases hc
  · exact hr k c hc

/-- **Trees that fit can all be compared.** -/
theorem exists_patches (hr : r.Every (Component.Built host had))
    (hformer : ∀ e ∈ former, ∀ tree, e.2 = some tree → tree.Fits) :
    ∃ ps r', r.patches former = (.ok ps, r') ∧ r'.Every (Component.Built host had) := by
  induction former generalizing r with
  | nil => exact ⟨[], r, rfl, hr⟩
  | cons e former ih =>
      obtain ⟨k, before⟩ := e
      obtain ⟨hbefore, hformer⟩ := List.forall_mem_cons.mp hformer
      unfold patches
      cases hget : r.get? k with
      | none => exact ih hr hformer
      | some c =>
          cases htree : c.tree with
          | none =>
              simp only [htree]
              exact ih hr hformer
          | some tree =>
              obtain ⟨a, hbuilt⟩ := hr k c hget tree htree
              have hblank := hbuilt.blank r.stillborn
              obtain ⟨p, hpatch⟩ := Tree.exists_patchFrom .nowhere hbefore hblank.fits
              have hput : (r.put k { c with tree := some (r.blankStillborn tree) }).Every
                  (Component.Built host had) := by
                refine hr.put fun u hu => ?_
                obtain rfl := Option.some.inj hu
                exact ⟨a, hblank⟩
              obtain ⟨ps, r', hps, hr'⟩ := ih hput hformer
              simp only [htree, blankStillborn, hpatch] at hps ⊢
              rw [hps]
              exact ⟨_, r', rfl, hr'⟩

/-! ## A pass -/

section Failing

variable (hmild : ∀ e : Error, e.isFatal = false → E e)
variable (hkinds : ∀ key, (host.kinds key).FailsIn E)
include hmild hkinds

/-- References leave trees alone, and fail as the kinds do. -/
theorem among_built :
    Among host.kinds (fun _ => True) E fun r => r.Every (Component.Built host had) where
  refer r id kind props owner _ hr :=
    hr.refer lasting_built (built_new kind) id props owner
  refused r id kind props owner e _ _ he := by
    have hall : ∀ kind : KindRef, True → (host.kinds kind.key).FailsIn E :=
      fun kind _ => hkinds kind.key
    exact fails_refer hmild hall (fun _ _ _ => trivial) trivial he
  follow _ _ hr := hr
  draw _ e hr := hr.noteDrawn e
  noSuchChoice _ _ := hmild _ rfl

/-- **A template is rendered to a tree that is built**, and everything else stays in order. -/
theorem Sound.template (hp : Sound host had p former) (s : Scope) {t : Template}
    (ht : t.FailsIn E) {before : Option Tree} (hbefore : ∀ b, before = some b → b.Fits) :
    let after := (Pass.template host s t before).run p
    Sound host had after.2 former ∧ (∀ tree, after.1 = .ok tree → tree.Built host had t) ∧
      ∀ e, after.1 = .error e → E e := by
  obtain ⟨hkept, hfails⟩ := minds_template (among_built hmild hkinds) s (fun _ _ => trivial) ht
    (.inl hbefore) p hp.built
  have hfair := (inStep_template host s t before p hp.fair).1
  exact ⟨⟨hfair, hkept, hp.former⟩, fun _ => built_template hp.fair hbefore, hfails⟩

/-- **Rendering a component keeps all trees in order**, and ends the pass only with a failure that a
callback brought up. -/
theorem Sound.renderOne (hp : Sound host had p former) (h : Handle) :
    let after := Roster.renderOne host p h former
    Sound host had after.2.2 after.2.1 ∧ ∀ e, after.1 = .error e → E e := by
  dsimp only
  rcases retired_or_live p.roster h with hret | ⟨c, hc, hlive⟩
  · rw [(renderOne_of_retired host former hret).1]
    exact ⟨hp, nofun⟩
  · have hfits : ∀ b, c.tree = some b → b.Fits := (hp.built h c hc).fits
    -- the component is away while it is rendered
    have haway : Sound host had { p with roster := (p.roster.keepState c).vacate h } former :=
      ⟨hp.fair.withRoster _, Every.vacate (r := p.roster.keepState c) hp.built h, hp.former⟩
    obtain ⟨hafter, hbuilt, hfails⟩ := haway.template hmild hkinds (Scope.ofAssigns c.assigns)
      ((hkinds c.kind.key).render c.assigns) hfits
    rw [(renderOne_of_live host former hc hlive).1]
    obtain ⟨hfair, herror⟩ := settle_errors (outcomeOf host p h c).2 h c former
      (outcomeOf host p h c).1 hafter.fair
    obtain ⟨c', stillborn, hroster, hkind, htree⟩ := settle_record (outcomeOf host p h c).2 h c
      former (outcomeOf host p h c).1
    refine ⟨⟨hfair, ?_, fun e he tree htree => ?_⟩, fun e he => hfails e (herror e he)⟩
    · rw [hroster]
      refine Every.put hafter.built fun tree ht => ?_
      rw [hkind]
      rcases htree with hsame | ⟨t, hresult, hnew⟩
      · exact hp.built h c hc tree (hsame ▸ ht)
      · obtain rfl := Option.some.inj (hnew.symm.trans ht)
        exact ⟨c.assigns, hbuilt _ hresult⟩
    · rcases mem_former_settle he with rfl | hin
      · exact hfits tree htree
      · exact hp.former e hin tree htree

/-- **So does working off the queue.** -/
theorem Sound.drain {fuel : Nat} {result : Except Error Unit} (hp : Sound host had p former)
    (hd : Roster.drain host fuel p former = some (result, former', p')) :
    Sound host had p' former' ∧ ∀ e, result = .error e → E e := by
  refine (drain_keeps (P := fun result p former => Sound host had p former ∧
    ∀ e, result = .error e → E e)
    (fun {p p' former former' h queue result} hp _ hone => ?_) ⟨hp, nofun⟩ hd).1
  have hrest : Sound host had { p with roster := { p.roster with queue } } former :=
    ⟨hp.1.fair.withRoster _, hp.1.built, hp.1.former⟩
  have hnext := hrest.renderOne hmild hkinds h
  rwa [hone] at hnext

/-- **Rendering what is queued** ends only with a failure that a callback brought up. -/
theorem Sound.renderQueue {fuel : Nat} {result : Except Error (Keyed Handle Patch)}
    (hp : Sound host had p []) (hq : Roster.renderQueue host fuel p = some (result, p')) :
    Sound host had p' [] ∧ ∀ e, result = .error e → E e := by
  unfold Roster.renderQueue at hq
  split at hq
  · cases hq
  · next e former q hd =>
      obtain ⟨rfl, rfl⟩ := Prod.mk.inj (Option.some.inj hq)
      obtain ⟨hsound, hfails⟩ := hp.drain hmild hkinds hd
      refine ⟨⟨hsound.fair.withRoster _, hsound.built, List.forall_mem_nil _⟩, fun e' he' => ?_⟩
      obtain rfl := Except.error.inj he'
      exact hfails _ rfl
  · next former q hd =>
      obtain ⟨hsound, -⟩ := hp.drain hmild hkinds hd
      obtain ⟨ps, r', hps, hr'⟩ := exists_patches hsound.built.dropStillborn hsound.former
      rw [hps] at hq
      obtain ⟨rfl, rfl⟩ := Prod.mk.inj (Option.some.inj hq)
      exact ⟨⟨hsound.fair.withRoster _, hr', List.forall_mem_nil _⟩, nofun⟩

end Failing

/-! ## Outside of passes -/

theorem Every.deliver {P : Component → Prop} (hr : r.Every P) (hlasting : Lasting P)
    (kinds : Kinds) (id : String) (props : Fields) : (r.deliver kinds id props).2.Every P := by
  unfold Roster.deliver
  split
  · exact hr
  · next h _ =>
      split
      · exact hr
      · next c hc =>
          have hput : (r.put h { c with
              assigns := ((kinds c.kind.key).update props c.assigns).1 }).Every P :=
            hr.put (hlasting c _ c.owner (hr h c hc))
          dsimp only
          split
          · exact hput
          · dsimp only
            split
            · exact hput.schedule h
            · exact hput

/-- A component that is retired keeps its tree until its record is dropped. -/
theorem Retires.built {r' : Roster} (hret : Retires r r')
    (hr : r.Every (Component.Built host had)) : r'.Every (Component.Built host had) := by
  intro k c' hc'
  obtain ⟨c, hc, heq, -⟩ := hret.record k c' hc'
  rw [heq]
  exact hr k c hc

/-- What is left once the client was told was there before. -/
theorem Every.told {P : Component → Prop} {r' : Roster} (hr : r.Every P) (hret : Retires r r')
    (harena : r'.Arena) : r'.tell.2.reclaim.Every P :=
  fun k c hc => hr k c (get?_reclaim_tell_of_retires hret harena hc).1

end Roster

end ViewSync
