import Mathlib.Data.Multiset.DershowitzManna
import Mathlib.Order.WithBot
import ViewSync.Proofs.Pass.Among
import ViewSync.Proofs.Roster.Calls
import ViewSync.Proofs.Roster.Replies
import ViewSync.Proofs.Roster.Drawings

/-!
# Kinds by rank

Kinds may be ranked such that each refers to kinds of smaller rank only. Then the queue comes to an
end, although rendering a component may put any number of others into it, and some of them again:
all of these are of smaller rank than the one that was taken out. So the ranks in the queue get
smaller as a multiset. A component never changes its kind while it is there, and a handle that is
given to another component is one to spare no more.
-/

namespace ViewSync

/-- The last tree of a component fits its shape. -/
def Component.Fits (c : Component) : Prop := ∀ t, c.tree = some t → t.Fits

namespace Roster

variable {α : Type*}

/-! ## Ranks in a queue -/

section Weight

variable [Preorder α]

/-- How far a roster is from an empty queue. -/
def Lighter : ℕ × Multiset (WithBot α) → ℕ × Multiset (WithBot α) → Prop :=
  Prod.Lex (· < ·) Multiset.IsDershowitzMannaLT

theorem wellFounded_lighter [WellFoundedLT α] : WellFounded (Lighter (α := α)) :=
  WellFounded.prod_lex wellFounded_lt Multiset.wellFounded_isDershowitzMannaLT

/-- Entries that stay as they are or get small, and small ones that come up, are less than what they
were with something larger. -/
theorem isDershowitzMannaLT_map {f g : Handle → WithBot α} {n : WithBot α} {q more : List Handle}
    (hq : ∀ k ∈ q, g k = f k ∨ g k < n) (hmore : ∀ k ∈ more, g k < n) :
    Multiset.IsDershowitzMannaLT (((q ++ more).map g : List _) : Multiset (WithBot α))
      ((n :: q.map f : List _) : Multiset (WithBot α)) := by
  have hsplit : ∃ X Y Z : List (WithBot α), (q.map g).Perm (X ++ Y) ∧ (q.map f).Perm (X ++ Z) ∧
      ∀ y ∈ Y, y < n := by
    induction q with
    | nil => exact ⟨[], [], [], .nil, .nil, List.forall_mem_nil _⟩
    | cons k q ih =>
        obtain ⟨hk, hq⟩ := List.forall_mem_cons.mp hq
        obtain ⟨X, Y, Z, hg, hf, hY⟩ := ih hq
        rcases hk with hk | hk
        · refine ⟨f k :: X, Y, Z, ?_, hf.cons (f k), hY⟩
          rw [List.map_cons, hk]
          exact hg.cons (f k)
        · refine ⟨X, g k :: Y, f k :: Z, ?_, ?_, List.forall_mem_cons.mpr ⟨hk, hY⟩⟩
          · exact (hg.cons (g k)).trans List.perm_middle.symm
          · exact (hf.cons (f k)).trans List.perm_middle.symm
  obtain ⟨X, Y, Z, hg, hf, hY⟩ := hsplit
  refine ⟨X, (Y ++ more.map g : List _), (n :: Z : List _), ?_, ?_, ?_, fun y hy => ?_⟩
  · exact fun h => List.cons_ne_nil n Z (Multiset.coe_eq_zero _ |>.mp h)
  · rw [Multiset.coe_add, Multiset.coe_eq_coe, List.map_append, ← List.append_assoc]
    exact hg.append_right _
  · rw [Multiset.coe_add, Multiset.coe_eq_coe]
    exact (hf.cons n).trans List.perm_middle.symm
  · refine ⟨n, List.mem_cons_self, ?_⟩
    rcases List.mem_append.mp hy with hy | hy
    · exact hY y hy
    · obtain ⟨k, hk, rfl⟩ := List.mem_map.mp hy
      exact hmore k hk

end Weight

/-- The rank of the component of a handle, which is least if there is none. -/
def rankAt (rank : String → α) (r : Roster) (h : Handle) : WithBot α :=
  (r.get? h).map fun c => rank c.kind.name

/-- The handles to spare, and the ranks in the queue. -/
def weight (rank : String → α) (r : Roster) : ℕ × Multiset (WithBot α) :=
  (r.spare.length, (r.queue.map (r.rankAt rank) : List _))

/-! ## Records that references leave as they are -/

/-- Every record has a property. -/
def Every (P : Component → Prop) (r : Roster) : Prop := ∀ h c, r.get? h = some c → P c

/-- A property of components that does not depend on what references write. -/
def Lasting (P : Component → Prop) : Prop :=
  ∀ c assigns owner, P c → P { c with assigns, owner }

variable {kinds : Kinds} {P : Component → Prop} {r : Roster} {h : Handle}

theorem Every.put (hr : r.Every P) {c : Component} (hc : P c) : (r.put h c).Every P := by
  intro k d hd
  rcases get?_put_cases hd with ⟨-, rfl⟩ | hd
  · exact hc
  · exact hr k d hd

theorem Every.vacate (hr : r.Every P) (h : Handle) : (r.vacate h).Every P := by
  intro k d hd
  rw [get?_vacate] at hd
  split at hd
  · cases hd
  · exact hr k d hd

theorem Every.schedule (hr : r.Every P) (h : Handle) : (r.schedule h).Every P := by
  intro k d hd
  rw [get?_schedule] at hd
  exact hr k d hd

theorem Every.noteDrawn (hr : r.Every P) (e : StreamEntry) : (r.noteDrawn e).Every P := by
  obtain ⟨drawn, heq, -⟩ := noteDrawn_eq r e
  rw [heq]
  exact hr

theorem Every.refer (hr : r.Every P) (hlasting : Lasting P) {kind : KindRef}
    (hnew : ∀ id handle assigns owner, P { id, handle, kind, assigns, owner })
    (id : String) (props : Fields) (owner : Option StreamEntry) :
    (r.refer kinds id kind props owner).2.Every P := by
  have hover {h : Handle} {c : Component} (hc : r.get? h = some c) :
      (r.handOver kinds h c props owner).Every P :=
    Every.put (r := r.keepState c) hr (hlasting c _ _ (hr h c hc))
  have hspec := refer_spec kinds r id kind props owner
  generalize (r.refer kinds id kind props owner).1 = x at hspec
  generalize (r.refer kinds id kind props owner).2 = r' at hspec ⊢
  cases hspec with
  | refused e => exact hr
  | stillborn => exact hr
  | inside => exact hr
  | failed _ _ hc _ => exact hover hc
  | stale _ _ hc _ => exact Every.schedule (r := see _ _) (hover hc) _
  | unchanged _ _ hc _ => exact hover hc
  | created _ _ _ =>
      refine Every.schedule (r := see _ _) (fun k d hd => ?_) _
      rcases get?_create_cases hd with ⟨-, rfl⟩ | hd
      · exact hnew _ _ _ _
      · exact hr k d hd

/-! ## Ranks while a component is away -/

variable [Preorder α] {rank : String → α} {r₀ : Roster} {n : WithBot α}

/-- While a component of a rank is being rendered, smaller ones come up in the queue and in new
records, and nothing else happens to ranks. -/
structure Falling (rank : String → α) (r₀ : Roster) (h : Handle) (n : WithBot α) (r : Roster) :
    Prop where
  /-- No handle to spare was taken. -/
  spare : r.spare = r₀.spare
  /-- The component has a slot. -/
  lt : h < r.slots.length
  /-- Its record is away. -/
  away : r.get? h = none
  /-- What was queued since has a smaller rank. -/
  queue : ∃ more, r.queue = r₀.queue ++ more ∧ ∀ k ∈ more, k ≠ h ∧ r.rankAt rank k < n
  /-- Other ranks are as they were, or smaller. -/
  ranks : ∀ k, k ≠ h → r.rankAt rank k = r₀.rankAt rank k ∨ r.rankAt rank k < n

namespace Falling

/-- Marks do not matter. -/
theorem marks (hf : Falling rank r₀ h n r) {r' : Roster} (hspare : r'.spare = r.spare)
    (hslots : r'.slots = r.slots) (hqueue : r'.queue = r.queue) : Falling rank r₀ h n r' := by
  have hget (k : Handle) : r'.get? k = r.get? k := by rw [get?, get?, hslots]
  have hrank (k : Handle) : r'.rankAt rank k = r.rankAt rank k := by rw [rankAt, rankAt, hget]
  refine ⟨hspare.trans hf.spare, hslots ▸ hf.lt, (hget h).trans hf.away, ?_, ?_⟩
  · simp only [hqueue, hrank]
    exact hf.queue
  · simp only [hrank]
    exact hf.ranks

theorem schedule (hf : Falling rank r₀ h n r) {k : Handle} (hk : k ≠ h)
    (hrank : r.rankAt rank k < n) : Falling rank r₀ h n (r.schedule k) := by
  unfold Roster.schedule
  split
  · exact hf
  · obtain ⟨more, hqueue, hmore⟩ := hf.queue
    refine ⟨hf.spare, hf.lt, hf.away, ⟨more ++ [k], ?_, ?_⟩, hf.ranks⟩
    · change r.queue ++ [k] = _
      rw [hqueue, List.append_assoc]
    · exact List.forall_mem_append.mpr ⟨hmore, List.forall_mem_singleton.mpr ⟨hk, hrank⟩⟩

theorem ne (hf : Falling rank r₀ h n r) {k : Handle} {c : Component} (hc : r.get? k = some c) :
    k ≠ h := by
  rintro rfl
  rw [hf.away] at hc
  cases hc

/-- Props that are handed over leave the kind of a component as it is. -/
theorem handOver (hf : Falling rank r₀ h n r) {k : Handle} {c : Component} (hc : r.get? k = some c)
    (props : Fields) (owner : Option StreamEntry) :
    Falling rank r₀ h n (r.handOver kinds k c props owner) := by
  have hget := get?_handOver kinds hc props owner
  have hrank (j : Handle) : (r.handOver kinds k c props owner).rankAt rank j = r.rankAt rank j := by
    rw [rankAt, rankAt, hget]
    split
    · next hj =>
        rw [hj, hc]
        rfl
    · rfl
  refine ⟨hf.spare, ?_, ?_, ?_, ?_⟩
  · exact (length_put (r.keepState c) k _).symm ▸ hf.lt
  · rw [hget, if_neg (hf.ne hc).symm]
    exact hf.away
  · simp only [hrank]
    exact hf.queue
  · simp only [hrank]
    exact hf.ranks

/-- A new record of a smaller rank takes a handle that was to spare, or a new one. -/
theorem create (hf : Falling rank r₀ h n r) {kind : KindRef}
    (hkind : (rank kind.name : WithBot α) < n) (id : String) (assigns : Assigns)
    (owner : Option StreamEntry) :
    (r.create id kind assigns owner).spare.length < r₀.spare.length ∨
      (r.takeHandle.1 ≠ h ∧ (r.create id kind assigns owner).rankAt rank r.takeHandle.1 < n ∧
        Falling rank r₀ h n (r.create id kind assigns owner)) := by
  have hrest := create_rest r id kind assigns owner
  rcases takeHandle_cases r with ⟨rest, hspare, -⟩ | ⟨hspare, hnew, -⟩
  · left
    rw [hrest, ← hf.spare, hspare]
    exact Nat.lt_succ_self _
  · right
    have hempty : r.SpareEmpty := by
      intro k hk
      rw [hspare] at hk
      cases hk
    have hget := get?_create hempty id kind assigns owner
    have hne : r.takeHandle.1 ≠ h := fun heq =>
      absurd hf.lt (by rw [← heq, hnew]; exact lt_irrefl _)
    have hself : (r.create id kind assigns owner).rankAt rank r.takeHandle.1 < n := by
      rw [rankAt, hget, if_pos rfl]
      exact hkind
    have hother (k : Handle) : (r.create id kind assigns owner).rankAt rank k = r.rankAt rank k ∨
        (r.create id kind assigns owner).rankAt rank k < n := by
      by_cases hk : k = r.takeHandle.1
      · exact .inr (hk ▸ hself)
      · rw [rankAt, rankAt, hget, if_neg hk]
        exact .inl rfl
    refine ⟨hne, hself, ?_, ?_, ?_, ?_, fun k hk => ?_⟩
    · rw [hrest, ← hf.spare, hspare]
      rfl
    · exact Nat.lt_of_lt_of_le hf.lt (length_le_create r id kind assigns owner)
    · rw [hget, if_neg hne.symm]
      exact hf.away
    · obtain ⟨more, hqueue, hmore⟩ := hf.queue
      refine ⟨more, ?_, fun k hk => ⟨(hmore k hk).1, ?_⟩⟩
      · rw [hrest]
        exact hqueue
      · rcases hother k with heq | hlt
        · exact heq ▸ (hmore k hk).2
        · exact hlt
    · rcases hother k with heq | hlt
      · rw [heq]
        exact hf.ranks k hk
      · exact .inr hlt

end Falling

theorem spare_schedule (r : Roster) (h : Handle) : (r.schedule h).spare = r.spare := by
  obtain ⟨queue, hq, -⟩ := schedule_eq r h
  rw [hq]

/-- References bring up no handles to spare. -/
theorem length_spare_refer (r : Roster) (id : String) (kind : KindRef) (props : Fields)
    (owner : Option StreamEntry) :
    (r.refer kinds id kind props owner).2.spare.length ≤ r.spare.length := by
  have hspec := refer_spec kinds r id kind props owner
  generalize (r.refer kinds id kind props owner).1 = x at hspec
  generalize (r.refer kinds id kind props owner).2 = r' at hspec ⊢
  cases hspec with
  | refused e => exact le_rfl
  | stillborn => exact le_rfl
  | inside => exact le_rfl
  | failed _ _ hc _ => exact le_rfl
  | stale _ _ hc _ =>
      rw [spare_schedule]
      exact le_rfl
  | unchanged _ _ hc _ => exact le_rfl
  | @created a b _ _ _ =>
      rw [spare_schedule]
      change (r.create id kind b owner).spare.length ≤ _
      rw [create_rest, List.length_tail]
      exact Nat.sub_le _ _

/-- **A reference to a kind of smaller rank** uses up a handle to spare, or brings up what is of
smaller rank. -/
theorem Falling.refer (hf : Falling rank r₀ h n r) {kind : KindRef}
    (hkind : (rank kind.name : WithBot α) < n) (id : String) (props : Fields)
    (owner : Option StreamEntry) :
    (r.refer kinds id kind props owner).2.spare.length < r₀.spare.length ∨
      Falling rank r₀ h n (r.refer kinds id kind props owner).2 := by
  by_cases hname : ∃ k c, r.handle? id = some k ∧ k ∉ r.stillborn ∧ r.get? k = some c ∧
      c.kind.name ≠ kind.name
  · -- a component of another name is left alone
    obtain ⟨k, c, hid, hborn, hc, hne⟩ := hname
    have hsame : (r.refer kinds id kind props owner).2 = r := by
      unfold Roster.refer
      simp only [hid, if_neg hborn, hc, if_pos hne]
    rw [hsame]
    exact .inr hf
  · have hspec := refer_spec kinds r id kind props owner
    generalize (r.refer kinds id kind props owner).1 = x at hspec
    generalize (r.refer kinds id kind props owner).2 = r' at hspec ⊢
    cases hspec with
    | refused e => exact .inr hf
    | stillborn => exact .inr hf
    | inside => exact .inr (hf.marks rfl rfl rfl)
    | failed _ _ hc _ => exact .inr (hf.handOver hc props owner)
    | @stale k c hid hborn hc _ =>
        have hover : Falling rank r₀ h n (r.handOver kinds k c props owner) :=
          hf.handOver hc props owner
        have hsame : c.kind.name = kind.name := by
          by_contra hne
          exact hname ⟨k, c, hid, hborn, hc, hne⟩
        have hlow : (r.handOver kinds k c props owner).rankAt rank k < n := by
          rw [rankAt, get?_handOver kinds hc, if_pos rfl]
          change (rank c.kind.name : WithBot α) < n
          rw [hsame]
          exact hkind
        have hseen : Falling rank r₀ h n ((r.handOver kinds k c props owner).see k) :=
          hover.marks rfl rfl rfl
        exact .inr (hseen.schedule (hf.ne hc) hlow)
    | unchanged _ _ hc _ => exact .inr ((hf.handOver hc props owner).marks rfl rfl rfl)
    | @created a b _ _ _ =>
        rcases hf.create hkind id b owner with hlt | ⟨hne, hlow, hnew⟩
        · left
          rw [spare_schedule]
          exact hlt
        · have hseen : Falling rank r₀ h n ((r.create id kind b owner).see r.takeHandle.1) :=
            hnew.marks rfl rfl rfl
          exact .inr (hseen.schedule hne hlow)

/-! ## One component -/

/-- Kinds that are in use refer to kinds that are in use, and of smaller rank. -/
def Ranked (kinds : Kinds) (rank : String → α) (Used : KindRef → Prop) : Prop :=
  ∀ kind, Used kind → ∀ a, ∀ ref ∈ ((kinds kind.key).render a).references,
    Used ref.1 ∧ rank ref.1.name < rank kind.name

open ViewSync.Pass

variable {host : Host} {Used : KindRef → Prop}

/-- Rendering what refers to kinds of smaller rank keeps all of this. -/
theorem among_falling (hkinds : Kinds) :
    Among hkinds (fun kind => Used kind ∧ (rank kind.name : WithBot α) < n) (fun _ => True)
      fun r => r.Every (Used ·.kind) ∧
        (r.spare.length < r₀.spare.length ∨ Falling rank r₀ h n r) where
  refer r id kind props owner hkind hr := by
    refine ⟨hr.1.refer (fun _ _ _ hc => hc) (fun _ _ _ _ => hkind.1) id props owner, ?_⟩
    rcases hr.2 with hlt | hf
    · exact .inl (lt_of_le_of_lt (length_spare_refer r id kind props owner) hlt)
    · exact hf.refer hkind.2 id props owner
  refused _ _ _ _ _ _ _ _ _ := trivial
  follow r t hr := ⟨hr.1, hr.2.imp_right fun hf => hf.marks rfl rfl rfl⟩
  draw r e hr := by
    obtain ⟨drawn, heq, -⟩ := noteDrawn_eq r e
    rw [heq]
    exact ⟨hr.1, hr.2.imp_right fun hf => hf.marks rfl rfl rfl⟩
  noSuchChoice _ _ := trivial

/-- A component is taken out of its slot to be rendered. -/
theorem falling_vacate {c : Component} (hc : r.get? h = some c) :
    Falling rank r h (rank c.kind.name) ((r.keepState c).vacate h) where
  spare := rfl
  lt := (length_vacate (r.keepState c) h).symm ▸ lt_of_get? hc
  away := by rw [get?_vacate, if_pos rfl]
  queue := ⟨[], (List.append_nil _).symm, List.forall_mem_nil _⟩
  ranks k hk := by
    left
    rw [rankAt, rankAt, get?_vacate, if_neg hk]
    rfl

/-- Once it is put back, what is in the queue has got lighter. -/
theorem Falling.lighter {c c' : Component} (hf : Falling rank r₀ h (rank c.kind.name) r)
    (hc : r₀.get? h = some c) (hkind : c'.kind = c.kind) :
    Multiset.IsDershowitzMannaLT
      (((r.put h c').queue.map ((r.put h c').rankAt rank) : List _) : Multiset (WithBot α))
      (((rank c.kind.name : WithBot α) :: r₀.queue.map (r₀.rankAt rank) : List (WithBot α)) :
        Multiset (WithBot α)) := by
  have hget := get?_put hf.lt c'
  have hself : (r.put h c').rankAt rank h = r₀.rankAt rank h := by
    rw [rankAt, rankAt, hget, if_pos rfl, hc]
    exact congrArg (fun kind : KindRef => (rank kind.name : WithBot α)) hkind
  have hother (k : Handle) (hk : k ≠ h) : (r.put h c').rankAt rank k = r.rankAt rank k := by
    rw [rankAt, rankAt, hget, if_neg hk]
  obtain ⟨more, hqueue, hmore⟩ := hf.queue
  rw [show (r.put h c').queue = r₀.queue ++ more from hqueue]
  refine isDershowitzMannaLT_map (fun k _ => ?_) fun k hk => ?_
  · by_cases hk : k = h
    · exact .inl (hk ▸ hself)
    · rw [hother k hk]
      exact hf.ranks k hk
  · rw [hother k (hmore k hk).1]
    exact (hmore k hk).2

/-- Settling puts back a record of the same kind. -/
theorem settle_record (q : Pass) (h : Handle) (c : Component) (former : FormerTrees)
    (result : Except Error Tree) :
    ∃ c' stillborn, (settle q h c former result).2.2.roster =
      { q.roster.put h c' with stillborn } ∧ c'.kind = c.kind ∧
      (c'.tree = c.tree ∨ ∃ t, result = .ok t ∧ c'.tree = some t) := by
  cases result with
  | ok t =>
      exact ⟨{ c with tree := some t, assigns := c.assigns.settled }, q.roster.stillborn, rfl, rfl,
        .inr ⟨t, rfl, rfl⟩⟩
  | error e =>
      unfold settle
      dsimp only
      split
      · exact ⟨c, q.roster.stillborn, rfl, rfl, .inl rfl⟩
      · split
        · exact ⟨c, q.roster.stillborn.insert h, rfl, rfl, .inl rfl⟩
        · exact ⟨c, q.roster.stillborn, rfl, rfl, .inl rfl⟩

/-- **Rendering the next component makes the roster lighter.** -/
theorem lighter_renderOne (hranked : Ranked host.kinds rank Used) {p : Pass} {queue : List Handle}
    (hused : p.roster.Every (Used ·.kind)) (hq : p.roster.queue = h :: queue)
    (former : FormerTrees) :
    let after := (renderOne host { p with roster := { p.roster with queue } } h former).2.2.roster
    after.Every (Used ·.kind) ∧ Lighter (after.weight rank) (p.roster.weight rank) := by
  have hweight : p.roster.weight rank = (p.roster.spare.length,
      ((p.roster.rankAt rank h :: queue.map (p.roster.rankAt rank) : List _) :
        Multiset (WithBot α))) := by
    rw [weight, hq]
    rfl
  dsimp only
  rw [hweight]
  rcases retired_or_live p.roster h with hret | ⟨c, hc, hlive⟩
  · -- what is passed over is one less in the queue
    rw [(renderOne_of_retired host former
      (p := { p with roster := { p.roster with queue } }) hret).1]
    refine ⟨hused, Prod.Lex.right _ ?_⟩
    have hnone : ∀ k ∈ ([] : List Handle), p.roster.rankAt rank k < p.roster.rankAt rank h :=
      List.forall_mem_nil _
    have hless := isDershowitzMannaLT_map (f := p.roster.rankAt rank) (q := queue)
      (fun _ _ => .inl rfl) hnone
    rw [List.append_nil] at hless
    exact hless
  · have hrank : p.roster.rankAt rank h = (rank c.kind.name : WithBot α) := by
      rw [rankAt, hc]
      rfl
    let r₀ : Roster := { p.roster with queue }
    have hc₀ : r₀.get? h = some c := hc
    have hrefs : ∀ ref ∈ ((host.kinds c.kind.key).render c.assigns).references,
        Used ref.1 ∧ (rank ref.1.name : WithBot α) < rank c.kind.name := fun ref href =>
      (hranked c.kind (hused h c hc) c.assigns ref href).imp_right WithBot.coe_lt_coe.mpr
    have hminds : Pass.Minds (fun r => r.Every (Used ·.kind) ∧ (r.spare.length < r₀.spare.length ∨
        Falling rank r₀ h (rank c.kind.name : WithBot α) r)) (fun _ => True)
        (Pass.template host (Scope.ofAssigns c.assigns)
          ((host.kinds c.kind.key).render c.assigns) c.tree) :=
      Pass.minds_template (among_falling host.kinds) _ hrefs (Template.failsIn_true _)
        (.inr fun _ => trivial)
    obtain ⟨hused', hfall⟩ := (hminds { p with roster := (r₀.keepState c).vacate h }
      ⟨Every.vacate (r := r₀.keepState c) hused h, .inr (falling_vacate hc₀)⟩).1
    rw [(renderOne_of_live host former (p := { p with roster := r₀ }) hc hlive).1]
    obtain ⟨c', stillborn, hroster, hkind, -⟩ := settle_record
      (outcomeOf host { p with roster := r₀ } h c).2 h c former
      (outcomeOf host { p with roster := r₀ } h c).1
    rw [hroster, hrank]
    refine ⟨hused'.put (P := (Used ·.kind)) (hkind ▸ hused h c hc), ?_⟩
    rcases hfall with hlt | hf
    · exact Prod.Lex.left _ _ hlt
    · exact Prod.lex_def.mpr (.inr ⟨congrArg List.length hf.spare, hf.lighter hc₀ hkind⟩)

/-! ## Failures that end a pass -/

/-- A reference fails as the kinds do, or can be recovered from. -/
theorem fails_refer {E : Error → Prop} (hmild : ∀ e : Error, e.isFatal = false → E e)
    (hkinds : ∀ kind, Used kind → (kinds kind.key).FailsIn E)
    (hr : r.Every (Used ·.kind)) {kind : KindRef} (hkind : Used kind) {id : String}
    {props : Fields} {owner : Option StreamEntry} {e : Error}
    (he : (r.refer kinds id kind props owner).1 = .error e) : E e := by
  have hnew (he : (r.referNew kinds id kind props owner).1 = .error e) : E e := by
    unfold referNew at he
    split at he
    · next hmount =>
        obtain rfl := Except.error.inj he
        exact (hkinds kind hkind).mount _ _ hmount
    · split at he
      · next hupdate =>
          obtain rfl := Except.error.inj he
          exact (hkinds kind hkind).update _ _ _ (by rw [hupdate])
      · cases he
  unfold Roster.refer at he
  split at he
  · next h _ =>
      split at he
      · cases he
      · split at he
        · cases he
        · next c hc =>
            split at he
            · obtain rfl := Except.error.inj he
              exact hmild _ rfl
            · unfold referLive at he
              dsimp only at he
              split at he
              · next hupdate =>
                  obtain rfl := Except.error.inj he
                  exact (hkinds c.kind (hr h c hc)).update _ _ _ hupdate
              · split at he <;> cases he
  · split at he
    · split at he
      · obtain rfl := Except.error.inj he
        exact hmild _ rfl
      · exact hnew he
    · exact hnew he

/-- References to kinds that recover can be recovered from. -/
theorem recovers_refer (hkinds : ∀ kind, Used kind → (kinds kind.key).Recovers)
    (hr : r.Every (Used ·.kind)) {kind : KindRef} (hkind : Used kind) {id : String}
    {props : Fields} {owner : Option StreamEntry} {e : Error}
    (he : (r.refer kinds id kind props owner).1 = .error e) : e.isFatal = false :=
  fails_refer (fun _ hmild => hmild) (fun kind hkind => (hkinds kind hkind).failsIn) hr hkind he

theorem among_recovers (hkinds : ∀ kind, Used kind → (kinds kind.key).Recovers) :
    Among kinds Used (·.isFatal = false) fun r =>
      r.Every (Used ·.kind) ∧ r.Every Component.Fits where
  refer r id kind props owner hkind hr := by
    refine ⟨hr.1.refer (fun _ _ _ hc => hc) (fun _ _ _ _ => hkind) id props owner, ?_⟩
    exact hr.2.refer (fun _ _ _ hc => hc) (fun _ _ _ _ _ ht => by cases ht) id props owner
  refused _ _ _ _ _ _ hkind hr he := recovers_refer hkinds hr.1 hkind he
  follow _ _ hr := hr
  draw _ e hr := ⟨hr.1.noteDrawn e, hr.2.noteDrawn e⟩
  noSuchChoice _ _ := rfl

/-- **Where kinds recover and trees fit, rendering the next component does not end the pass.** -/
theorem recovers_renderOne (hkinds : ∀ kind, Used kind → (host.kinds kind.key).Recovers)
    (hranked : Ranked host.kinds rank Used) {p : Pass} (hused : p.roster.Every (Used ·.kind))
    (hfits : p.roster.Every Component.Fits) (h : Handle) (former : FormerTrees) :
    let after := renderOne host p h former
    after.1 = .ok () ∧ after.2.2.roster.Every Component.Fits := by
  dsimp only
  rcases retired_or_live p.roster h with hret | ⟨c, hc, hlive⟩
  · rw [(renderOne_of_retired host former hret).1]
    exact ⟨rfl, hfits⟩
  · have hbefore : (∀ b, c.tree = some b → b.Fits) ∨ ∀ e : Error, e.isFatal = false :=
      .inl (hfits h c hc)
    obtain ⟨⟨-, hfits'⟩, hfails⟩ := minds_template (among_recovers hkinds)
      (Scope.ofAssigns c.assigns)
      (fun ref href => (hranked c.kind (hused h c hc) c.assigns ref href).1)
      ((hkinds c.kind (hused h c hc)).render c.assigns) hbefore
      { p with roster := (p.roster.keepState c).vacate h }
      ⟨Every.vacate (r := p.roster.keepState c) hused h,
        Every.vacate (r := p.roster.keepState c) hfits h⟩
    rw [(renderOne_of_live host former hc hlive).1]
    obtain ⟨c', stillborn, hroster, -, htree⟩ := settle_record (outcomeOf host p h c).2 h c former
      (outcomeOf host p h c).1
    refine ⟨?_, ?_⟩
    · cases hresult : (outcomeOf host p h c).1 with
      | ok t => rfl
      | error e => rw [settle_error (hfails e hresult)]
    · rw [hroster]
      refine Every.put hfits' fun t ht => ?_
      rcases htree with hsame | ⟨t', hresult, htree⟩
      · exact hfits h c hc t (hsame ▸ ht)
      · obtain rfl := Option.some.inj (htree.symm.trans ht)
        exact fits_of_template hresult (hfits h c hc)

/-! ## Draining -/

/-- Only a failure that is fatal ends a pass. -/
theorem isFatal_of_renderOne {p : Pass} {former : FormerTrees} {e : Error}
    (he : (renderOne host p h former).1 = .error e) : e.isFatal = true := by
  rcases retired_or_live p.roster h with hret | ⟨c, hc, hlive⟩
  · rw [(renderOne_of_retired host former hret).1] at he
    cases he
  · rw [(renderOne_of_live host former hc hlive).1] at he
    unfold settle at he
    split at he
    · cases he
    · dsimp only at he
      split at he
      · next hfatal =>
          obtain rfl := Except.error.inj he
          exact hfatal
      · cases he

/-- **Draining comes to an end.** If the kinds in use can be ranked such that each of them refers to
kinds of smaller rank only, a queue is worked off after so many components, with whatever props and
however many references to the same ids; unless a failure is fatal, which none is as long as kinds
recover and trees fit. -/
theorem drain_ends [WellFoundedLT α] (hranked : Ranked host.kinds rank Used) {p : Pass}
    (hused : p.roster.Every (Used ·.kind)) (former : FormerTrees) :
    ∃ n result former' p', (∀ fuel, n ≤ fuel →
        drain host fuel p former = some (result, former', p')) ∧
      ((result = .ok () ∧ p'.roster.queue = []) ∨ ∃ e, result = .error e ∧ e.isFatal = true) ∧
      ((∀ kind, Used kind → (host.kinds kind.key).Recovers) → p.roster.Every Component.Fits →
        result = .ok ()) := by
  induction p using (InvImage.wf (fun p : Pass => p.roster.weight rank)
    wellFounded_lighter).induction generalizing former with
  | _ p ih =>
      cases hq : p.roster.queue with
      | nil =>
          exact ⟨0, .ok (), former, p, fun fuel _ => drain_nil host hq fuel former,
            .inl ⟨rfl, hq⟩, fun _ _ => rfl⟩
      | cons h queue =>
          obtain ⟨hused', hlighter⟩ := lighter_renderOne hranked hused hq former
          have hmild := fun hkinds (hfits : p.roster.Every Component.Fits) => recovers_renderOne
            (p := { p with roster := { p.roster with queue } }) hkinds hranked hused hfits h former
          generalize hone : renderOne host { p with roster := { p.roster with queue } } h former =
            after at hused' hlighter hmild
          obtain ⟨result, former', p'⟩ := after
          have hstep := drain_cons host hq hone
          cases result with
          | error e =>
              refine ⟨1, .error e, former', p', fun fuel hfuel => ?_, .inr ⟨e, rfl, ?_⟩, ?_⟩
              · obtain ⟨fuel, rfl⟩ := Nat.exists_eq_succ_of_ne_zero (Nat.ne_zero_of_lt hfuel)
                exact hstep fuel
              · exact isFatal_of_renderOne (congrArg Prod.fst hone)
              · exact fun hkinds hfits => absurd (hmild hkinds hfits).1 nofun
          | ok _ =>
              obtain ⟨n, result, former₁, p₁, hdrain, hend, hok⟩ := ih p' hlighter hused' former'
              refine ⟨n + 1, result, former₁, p₁, fun fuel hfuel => ?_, hend, ?_⟩
              · obtain ⟨fuel, rfl⟩ := Nat.exists_eq_succ_of_ne_zero (Nat.ne_zero_of_lt hfuel)
                exact (hstep fuel).trans (hdrain fuel (Nat.le_of_succ_le_succ hfuel))
              · exact fun hkinds hfits => hok hkinds (hmild hkinds hfits).2

section Rows

private def rowRef (n : String) : Hole :=
  .component ⟨"row", "row"⟩ (fun _ => .ok "row") fun _ => .ok [("n", .str n)]

/-- A list with one row in two places, each of which hands it other props. -/
private def rowHost : Host :=
  ⟨fun key => Kind.ofTemplate (if key = "list"
    then .hole "<ul>" (rowRef "first") (.hole "" (rowRef "second") (.text "</ul>"))
    else .hole "<li>" (.value (.paths []) fun _ => .ok (.str "row")) (.text "</li>")), {}⟩

private def rowRank (name : String) : Nat := if name = "list" then 1 else 0

private def IsRowKind (kind : KindRef) : Prop := kind = ⟨"list", "list"⟩ ∨ kind = ⟨"row", "row"⟩

private def rowPass : Pass :=
  { roster :=
      { slots := [some { id := "list", handle := 0, kind := ⟨"list", "list"⟩
                         assigns := Assigns.empty }]
        ids := [("list", 0)]
        queue := [0] } }

private theorem ranked_rowHost : Ranked rowHost.kinds rowRank IsRowKind := by
  rintro kind (rfl | rfl) a ref href
  · have hrefs : ref ∈ (rowRef "first").references ++ (rowRef "second").references := href
    simp only [rowRef, Hole.references, List.cons_append, List.nil_append, List.mem_cons,
      List.not_mem_nil, or_false] at hrefs
    rcases hrefs with rfl | rfl <;> exact ⟨.inr rfl, by decide⟩
  · cases href

private theorem recovers_rowHost (kind : KindRef) (hkind : IsRowKind kind) :
    (rowHost.kinds kind.key).Recovers where
  mount _ _ he := by cases he
  update _ _ _ he := by cases he
  render a := by
    rcases hkind with rfl | rfl
    · exact ⟨⟨fun _ _ => nofun, fun _ _ => nofun⟩, ⟨fun _ _ => nofun, fun _ _ => nofun⟩, trivial⟩
    · exact ⟨fun _ _ => nofun, trivial⟩

private theorem record_rowPass {h : Handle} {c : Component} (hc : rowPass.roster.get? h = some c) :
    c.kind = ⟨"list", "list"⟩ ∧ c.tree = none := by
  cases h with
  | zero =>
      obtain rfl := Option.some.inj hc
      exact ⟨rfl, rfl⟩
  | succ h => cases hc

/-- The row is put into the queue by both references, and the queue is worked off. -/
theorem rows_drain_ends : ∃ n former p', (∀ fuel, n ≤ fuel →
    drain rowHost fuel rowPass [] = some (.ok (), former, p')) ∧ p'.roster.queue = [] := by
  obtain ⟨n, result, former, p', hdrain, hend, hok⟩ := drain_ends (p := rowPass) ranked_rowHost
    (fun h c hc => .inl (record_rowPass hc).1) []
  obtain rfl := hok recovers_rowHost fun h c hc t ht => by
    rw [(record_rowPass hc).2] at ht
    cases ht
  rcases hend with ⟨-, hq⟩ | ⟨e, he, -⟩
  · exact ⟨n, former, p', hdrain, hq⟩
  · cases he

end Rows

end Roster

end ViewSync
