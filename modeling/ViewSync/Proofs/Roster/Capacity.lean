import ViewSync.Proofs.Roster.Durable

/-!
# The limit on live components

A new id gets into the table only by a reference, and a reference makes a component only while there
is room for one more. That there are no more live components than the capacity allows is therefore
durable, and references keep it.
-/

namespace ViewSync

theorem Keyed.length_insert_le {κ α : Type} [DecidableEq κ] [LT κ]
    [DecidableRel (α := κ) (· < ·)] (m : Keyed κ α) (k : κ) (v : α) :
    (m.insert k v).length ≤ m.length + 1 := by
  induction m with
  | nil => exact Nat.le_refl _
  | cons e m ih =>
      simp only [Keyed.insert]
      split
      · exact Nat.le_succ _
      · split
        · exact Nat.le_refl _
        · exact Nat.succ_le_succ ih

namespace Roster

/-- The capacity is a given limit, and no more components are live than it allows. -/
structure Within (limit : Option Nat) (r : Roster) : Prop where
  /-- The capacity is the limit. -/
  capacity : r.capacity = limit
  /-- No more components are live than it allows. -/
  size : ∀ n, limit = some n → r.size ≤ n

variable {limit : Option Nat} {r : Roster}

theorem within_ofConfig (c : Config) : Within c.maxComponents (ofConfig c) :=
  ⟨rfl, fun _ _ => Nat.zero_le _⟩

theorem durable_within (limit : Option Nat) : Durable (Within limit) fun _ => True where
  congr hr _ hids hcapacity := by
    refine ⟨hcapacity.trans hr.capacity, fun n hn => ?_⟩
    rw [size, hids]
    exact hr.size n hn
  record _ _ := trivial
  rewrite _ _ := trivial
  put _ hr _ := ⟨hr.capacity, hr.size⟩
  vacate _ hr := ⟨hr.capacity, hr.size⟩
  unlist _ hr :=
    ⟨hr.capacity, fun n hn => Nat.le_trans (List.length_filter_le _ _) (hr.size n hn)⟩

/-- A new component takes the place of one at most. -/
theorem Within.referNew (hr : Within limit r) (hroom : ∀ n, limit = some n → r.size < n)
    (kinds : Kinds) {id : String} (hid : r.handle? id = none) (kind : KindRef) (props : Fields)
    (owner : Option StreamEntry) :
    Within limit (r.referNew kinds id kind props owner).2 := by
  have hspec := referNew_spec kinds kind props owner hid
  generalize (r.referNew kinds id kind props owner).1 = x at hspec
  generalize (r.referNew kinds id kind props owner).2 = r' at hspec ⊢
  have hlisted {h : Handle} (hsome : r.handle? id = some h) : Within limit r' := by
    rw [hid] at hsome
    cases hsome
  cases hspec with
  | refused e => exact hr
  | stillborn hsome _ => exact hlisted hsome
  | inside hsome _ => exact hlisted hsome
  | failed hsome _ _ _ => exact hlisted hsome
  | stale hsome _ _ _ => exact hlisted hsome
  | unchanged hsome _ _ _ => exact hlisted hsome
  | @created a b _ _ _ =>
      obtain ⟨queue, hq, -⟩ := schedule_eq ((r.create id kind b owner).see r.takeHandle.1)
        r.takeHandle.1
      rw [hq, see, create_rest]
      refine ⟨hr.capacity, fun n hn => ?_⟩
      exact Nat.le_trans (Keyed.length_insert_le r.ids id _) (hroom n hn)

/-- **References keep within the limit.** -/
theorem Within.refer (hr : Within limit r) (kinds : Kinds) (id : String) (kind : KindRef)
    (props : Fields) (owner : Option StreamEntry) :
    Within limit (r.refer kinds id kind props owner).2 := by
  cases hid : r.handle? id with
  | none =>
      unfold Roster.refer
      rw [hid]
      have hsame := hr.capacity
      cases hcapacity : r.capacity with
      | none =>
          refine hr.referNew (fun n hn => ?_) kinds hid kind props owner
          rw [← hsame, hcapacity] at hn
          cases hn
      | some n =>
          dsimp only
          split
          · exact hr
          · next hroom =>
              refine hr.referNew (fun m hm => ?_) kinds hid kind props owner
              rw [← hsame, hcapacity] at hm
              obtain rfl := Option.some.inj hm
              exact Nat.lt_of_not_le hroom
  | some h =>
      have hspec := refer_spec kinds r id kind props owner
      generalize (r.refer kinds id kind props owner).1 = x at hspec
      generalize (r.refer kinds id kind props owner).2 = r' at hspec ⊢
      cases hspec with
      | stale =>
          obtain ⟨queue, hq, -⟩ := schedule_eq ((r.handOver kinds _ _ props owner).see _) _
          rw [hq]
          exact ⟨hr.capacity, hr.size⟩
      | created hnone _ _ =>
          rw [hid] at hnone
          cases hnone
      | _ => exact ⟨hr.capacity, hr.size⟩

/-- All that a hole does to a roster keeps within the limit. -/
theorem closed_within (kinds : Kinds) (limit : Option Nat) :
    Pass.Closed kinds (fun _ => True) fun p => Within limit p.roster where
  refer p id kind props owner hp _ := hp.refer kinds id kind props owner
  follow p t hp := ⟨hp.capacity, hp.size⟩
  draw p e hp := by
    unfold noteDrawn
    split
    · exact hp
    · exact ⟨hp.capacity, hp.size⟩
  take _ _ hp := hp
  note _ _ hp := hp
  items _ _ _ _ _ _ _ := trivial
  keys _ := trivial

/-- **Rendering keeps within the limit.** -/
theorem yields_within (host : Host) (limit : Option Nat) (t : Template) (s : Scope)
    (before : Option Tree) :
    Pass.Yields (fun p => Within limit p.roster) (Pass.template host s t before)
      fun _ => True :=
  (Pass.yields_template (closed_within host.kinds limit) (Scope.all_true s)
    (Template.makes_true t) before).mono fun _ _ => trivial

end Roster

end ViewSync
