import ViewSync.Proofs.Patch.Lists
import ViewSync.Proofs.View.Homes
import ViewSync.Proofs.View.Waiting

/-!
# The lists of a view

A view takes the client to hold certain keys of every stream. The client has them in the place where
the hole of the stream is shown, as long as two things do not happen to the stream: a flush of it is
taken and lost, or a slot with its hole is sent whole while keys of it are held.
-/

namespace ViewSync.View

open Roster

variable {v : View} {fuel : Nat} {done : Rendering} {p p₁ p₂ : Pass} {name : String}

/-! ## What is held -/

/-- The keys of a stream that the client is taken to hold. -/
def keys (v : View) (name : String) : List String := (v.streams.held? name).getD []

theorem keys_of_get? {s : Stream} (hs : v.streams.get? name = some s) :
    v.keys name = s.held := by
  rw [keys, Streams.held?_of_get? hs, Option.getD_some]

/-- What a pass makes of the keys that are held: if the flush of the stream was taken, its edits are
carried out. No key is held twice. -/
theorem keys_settle (hv : v.streams.Numbered) (hnd : (v.keys name).Nodup) (done : Rendering)
    (p : Pass) : ((v.settle v.streams.plans done p).2.keys name).Nodup ∧
      (v.settle v.streams.plans done p).2.keys name =
        if p.flushes.has name then v.keys name
        else (v.opened.flushes.get? name).elim (v.keys name) (·.edits.apply (v.keys name)) := by
  have hsame (h : (v.settle v.streams.plans done p).2.streams.get? name = v.streams.get? name) :
      (v.settle v.streams.plans done p).2.keys name = v.keys name := by
    rw [keys, keys, Streams.held?, Streams.held?, h]
  cases hopen : v.opened.flushes.get? name with
  | none =>
      have hidle : (v.settle v.streams.plans done p).2.streams.get? name = v.streams.get? name := by
        cases hs : v.streams.get? name with
        | none =>
            rw [streams_settle hv, hs]
            rfl
        | some s =>
            refine get?_settle_idle hv hs (eq_false_of_ne_true fun hwait => ?_) done p
            cases hopen.symm.trans (get?_flushes_opened hv hs hwait)
      rw [hsame hidle, Option.elim_none, ite_self]
      exact ⟨hnd, rfl⟩
  | some f =>
      obtain ⟨s, hs, hwait, rfl⟩ := waits_of_opened hv hopen
      have hafter := get?_settle_streams hv hs hwait done p
      cases hleft : p.flushes.has name with
      | true =>
          rw [hleft, if_pos rfl, ← hs] at hafter
          rw [hsame hafter, if_pos rfl]
          exact ⟨hnd, rfl⟩
      | false =>
          rw [hleft, if_neg Bool.false_ne_true] at hafter
          rw [keys_of_get? hs] at hnd ⊢
          rw [keys_of_get? hafter, if_neg Bool.false_ne_true, Option.elim_some]
          exact (Stream.apply_plan hnd name).imp_right Eq.symm

/-- No key of a stream is held twice. -/
theorem nodup_keys {host : Host} {template : Template} (hv : Reachable host template v)
    (name : String) : (v.keys name).Nodup := by
  induction hv with
  | start => exact List.nodup_nil
  | @step v v' cmd answer hv hexec ih =>
      cases effect_of_exec hexec with
      | keyStream other keyOf =>
          have hsame : (v.keyStream other keyOf).keys name = v.keys name :=
            Streams.getD_held?_keyBy v.streams other keyOf name
          rwa [hsame]
      | @changeStream other c streams unsent hs =>
          have hsame : View.keys { v with streams, unsent } name = v.keys name :=
            Streams.getD_held?_change hs name
          rwa [hsame]
      | render hr =>
          rcases render_cases hr with ⟨e, p, -, -, rfl⟩ | ⟨done, p, -, -, rfl⟩
          · exact ih
          · exact (keys_settle (numbered_reachable hv) ih done p).1
      | close => exact List.nodup_nil
      | _ => exact ih

/-! ## What is shown -/

/-- The tree of the page, or that of a component. -/
def shown (v : View) : Option Handle → Option Tree
  | none => v.sent
  | some h => v.roster.tree? h

/-- A pass draws the page, and the components that it comes to. -/
def Redraws (v : View) (fuel : Nat) : Option Handle → Prop
  | none => True
  | some h => ∃ d ∈ v.drawings fuel, d.handle = h

/-- A stream has no two holes in what is shown. -/
structure SingleHole (v : View) (name : String) : Prop where
  /-- No tree has two holes of the stream. -/
  once : ∀ place t, v.shown place = some t → t.streams.count name ≤ 1
  /-- No two trees have one. -/
  apart : ∀ place place' t t', v.shown place = some t → v.shown place' = some t' →
    name ∈ t.streams → name ∈ t'.streams → place = place'

/-- A pass delivers the list of a stream: if a hole of the stream is shown after it, no flush of the
stream was taken and lost, and where the slot is sent whole, the edits make of the keys that were
held what they make of none. -/
structure Delivers (name : String) (v : View) (fuel : Nat) (outcome : Outcome) (v' : View) :
    Prop where
  /-- The stream has no two holes after the pass. -/
  single : v'.SingleHole name
  /-- Where it has one, no flush of it was lost. -/
  kept : ∀ place t, v'.shown place = some t → name ∈ t.streams →
    ¬v.Loses fuel outcome.message.gone name
  /-- Where that is sent whole, the edits make of no keys what they make of those that were held. -/
  whole : ∀ place t edits, v.Redraws fuel place → v'.shown place = some t →
    .hole name edits ∈ Tree.fresh (v.shown place) t →
    edits.elim (v.keys name) (·.apply (v.keys name)) = edits.elim [] (·.apply [])

/-! ## The client -/

/-- What a client keeps of the page, and of the components that it was told of. -/
abbrev Screen := Option Handle → Option (List Spot)

namespace Screen

/-- Take in a message. -/
def receive (screen : Screen) (m : Message) : Screen
  | none => m.root.spots (screen none)
  | some h =>
    if h ∈ m.gone then none
    else (m.components.get? h).elim (screen (some h)) (·.spots (screen (some h)))

/-- What becomes of a component that is left after a pass. -/
theorem receive_settle (screen : Screen) {v : View} {plans : List (String × Stream.Plan)}
    {done : Rendering} {p : Pass} {k : Handle}
    (hkept : k ∉ (v.settle plans done p).1.message.gone) :
    screen.receive (v.settle plans done p).1.message (some k) =
      (done.components.get? k).elim (screen (some k)) (·.spots (screen (some k))) := by
  have hget : (v.settle plans done p).1.message.components.get? k = done.components.get? k :=
    (Keyed.get?_filter_keys done.components (fun h => decide (h ∉ _)) k).trans
      (if_pos (decide_eq_true hkept))
  simp only [receive, if_neg hkept, hget]

/-- Take in an answer. Only passes, and the end of a view, concern the client. -/
def follow (screen : Screen) : Answer → Screen
  | .rendered (.ok outcome) _ => screen.receive outcome.message
  | .closed gone => fun place => if place.all (· ∈ gone) then none else screen place
  | _ => screen

/-- The client keeps what goes with all that is shown, and it has the keys of a stream that it is
taken to hold wherever a hole of the stream is shown. -/
def Tracks (screen : Screen) (name : String) (v : View) : Prop :=
  ∀ place t, v.shown place = some t →
    ∃ spots, screen place = some spots ∧ t.Shows name (v.keys name) spots

end Screen

/-! ## Passes -/

/-- Where a stream has one hole, that has one list of edits. -/
theorem edits_unique {t : Tree} (honce : t.streams.count name ≤ 1) {a b : Option StreamEdits}
    (ha : .hole name a ∈ t.marks) (hb : .hole name b ∈ t.marks) : a = b := by
  by_contra hne
  obtain ⟨before, after, hsplit⟩ := List.append_of_mem ha
  have hother : .hole name b ∈ before ++ after := by
    rw [hsplit, List.mem_append, List.mem_cons] at hb
    exact List.mem_append.mpr (hb.imp_right fun h => h.resolve_left fun heq =>
      hne (Mark.hole.inj heq).2.symm)
  have hcount : 0 < ((before ++ after).filterMap Mark.stream?).count name :=
    List.count_pos_iff.mpr (List.mem_filterMap.mpr ⟨_, hother, rfl⟩)
  have hstreams : t.streams =
      before.filterMap Mark.stream? ++ name :: after.filterMap Mark.stream? := by
    rw [Tree.streams, hsplit, List.filterMap_append]
    rfl
  rw [List.filterMap_append, List.count_append] at hcount
  rw [hstreams, List.count_append, List.count_cons_self] at honce
  omega

section Account

variable {S : Shape → Prop} {root : Tree} {rs : Refs} {fs : List (String × Stream.Flush)}
variable {former : FormerTrees} {e : StreamEdits}
variable (ha : Account S v fuel done p root rs fs p₁ p₂ former) (herrors : p.errors = [])
variable (hsent : ∀ t, v.sent = some t → t.Fits) (hrest : v.roster.Resting)
include ha herrors hsent hrest

/-- Edits that are not lost are in a tree that was drawn, and that is shown after the pass. -/
theorem Account.shown_of_hole (hin : .hole name (some e) ∈ v.marks fuel root)
    (hkept : ¬v.Loses fuel (v.settle v.streams.plans done p).1.message.gone name) :
    ∃ place t, (v.settle v.streams.plans done p).2.shown place = some t ∧ v.Redraws fuel place ∧
      .hole name (some e) ∈ t.marks := by
  rcases List.mem_append.mp hin with hin | hin
  · exact ⟨none, root, congrArg some (ha.root_clean herrors hrest), trivial, hin⟩
  · obtain ⟨d, hd, hin⟩ := List.mem_flatMap.mp hin
    obtain ⟨acts, hacts, -⟩ := ha.smooth_root herrors hsent
    have htaken := ha.drains.taken ha.kinds ha.redrawn (hacts.named v.named_opened)
      (ha.errors ▸ herrors) d hd name e hin
    obtain ⟨earlier, later, hsplit⟩ := List.append_of_mem hd
    have hdone : ¬d.Wasted _ later :=
      fun hwasted => hkept ⟨earlier, d, later, hsplit, htaken, hwasted⟩
    obtain ⟨-, -, hok⟩ := ha.sighted_drained hrest herrors
    obtain ⟨t, ht, -⟩ := hok d hd
    -- the component has the tree of this drawing to the end
    have hlast : lastDrawn later d.handle = none :=
      Classical.byContradiction fun h => hdone (.inr (.inl h))
    have hgone := fun h => hdone (.inr (.inr h))
    have hdrawn : lastDrawn (v.drawings fuel) d.handle = some t :=
      hsplit ▸ lastDrawn_of_last (by rw [ht]; rfl) hlast
    refine ⟨some d.handle, t, ?_, ⟨d, hd, rfl⟩, ?_⟩
    · change (v.settle v.streams.plans done p).2.roster.tree? d.handle = some t
      rw [tree?_settle, if_neg hgone, ha.tree?_clean herrors hrest, hdrawn, Option.some_or]
    · rwa [Drawing.marks_eq ht] at hin

variable (hnum : v.streams.Numbered) (hnd : (v.keys name).Nodup)
include hnum hnd

/-- What is held of a stream changes with the edits that were rendered of it, and not without. -/
theorem Account.keys_eq :
    (∀ e, .hole name (some e) ∈ v.marks fuel root →
      (v.settle v.streams.plans done p).2.keys name = e.apply (v.keys name)) ∧
    ((∀ e, .hole name (some e) ∉ v.marks fuel root) →
      (v.settle v.streams.plans done p).2.keys name = v.keys name) := by
  rw [(keys_settle hnum hnd done p).2]
  refine ⟨fun e hin => ?_, fun hout => ?_⟩
  · obtain ⟨f, hf, hnone, rfl⟩ := (ha.hole_iff herrors hrest hsent).mp hin
    rw [hnone, hf]
    rfl
  · cases hleft : p.flushes.has name with
    | true => rfl
    | false =>
        cases hf : v.opened.flushes.get? name with
        | none => rfl
        | some f =>
            exact absurd ((ha.hole_iff herrors hrest hsent).mpr ⟨f, hf, hleft, rfl⟩) (hout _)

variable (hdel : Delivers name v fuel (v.settle v.streams.plans done p).1
  (v.settle v.streams.plans done p).2)
variable {place : Option Handle} {t : Tree}
variable (ht : (v.settle v.streams.plans done p).2.shown place = some t)
include hdel ht

/-- If the keys that are held of a stream have changed, a hole of it that is shown was drawn with
the edits. -/
theorem Account.drawn_of_changed {edits : Option StreamEdits} (hin : .hole name edits ∈ t.marks)
    (hne : (v.settle v.streams.plans done p).2.keys name ≠ v.keys name) :
    v.Redraws fuel place ∧ edits ≠ none := by
  have hname : name ∈ t.streams := Tree.mem_streams.mpr ⟨edits, hin⟩
  obtain ⟨e, he⟩ : ∃ e, .hole name (some e) ∈ v.marks fuel root := by
    by_contra hout
    exact hne ((ha.keys_eq herrors hsent hrest hnum hnd).2 (not_exists.mp hout))
  obtain ⟨place', t', ht', hdrawn, hin'⟩ :=
    ha.shown_of_hole herrors hsent hrest he (hdel.kept place t ht hname)
  obtain rfl := hdel.single.apart place place' t t' ht ht' hname (Tree.mem_streams.mpr ⟨_, hin'⟩)
  obtain rfl : t = t' := Option.some.inj (ht.symm.trans ht')
  refine ⟨hdrawn, ?_⟩
  rintro rfl
  cases edits_unique (hdel.single.once place t ht) hin hin'

end Account

section Tracks

variable {S : Shape → Prop} {root : Tree} {rs : Refs} {fs : List (String × Stream.Flush)}
variable {former : FormerTrees} {place : Option Handle} {t : Tree}
variable (ha : Account S v fuel done p root rs fs p₁ p₂ former) (herrors : p.errors = [])
variable (hsent : ∀ t, v.sent = some t → t.Fits) (hrest : v.roster.Resting)
include ha herrors hrest

/-- What was drawn, and is shown after a pass, is part of what was rendered. -/
theorem Account.marks_shown (hplace : v.Redraws fuel place)
    (ht : (v.settle v.streams.plans done p).2.shown place = some t) :
    ∀ m ∈ t.marks, m ∈ v.marks fuel root := by
  intro m hm
  cases place with
  | none =>
      obtain rfl : root = t := (ha.root_clean herrors hrest).symm.trans (Option.some.inj ht)
      exact List.mem_append_left _ hm
  | some k =>
      obtain ⟨d, hd, -, hresult⟩ := lastDrawn_mem
        ((ha.tree?_left herrors hrest ht).resolve_right fun hundrawn =>
          hplace.elim fun d hd => hundrawn.1 d hd.1 hd.2)
      exact mem_marks_of_drawn hd hresult hm

/-- What is sent of a component that was drawn leads to the tree that it is left with. -/
theorem Account.sent_drawn (htidy : Tidy none [] v.roster) {k : Handle}
    (hlast : lastDrawn (v.drawings fuel) k = some t) :
    ∃ q, Tree.patchFrom .nowhere (v.roster.tree? k) t = .ok q ∧
      ∀ held, (done.components.get? k).elim held (·.spots held) = q.spots held := by
  obtain ⟨q, hq, hsends⟩ := ha.compares hrest htidy hlast
  rw [(ha.sighted_drained hrest herrors).1,
    Tree.blank_of_disjoint t fun _ _ => List.not_mem_nil] at hq
  refine ⟨q, hq, fun held => ?_⟩
  cases hget : done.components.get? k with
  | none =>
      have hempty : q.isEmpty = true := hsends.resolve_right fun hin => by
        rw [Keyed.get?_of_mem ha.brought.keys hin] at hget
        cases hget
      exact (Patch.spots_of_isEmpty hempty held).symm
  | some q' =>
      obtain ⟨u, hu, hq'⟩ := ha.brought.sent k q' (Keyed.mem_of_get? hget)
      rw [ha.tree?_clean herrors hrest, hlast, Option.some_or] at hu
      obtain rfl := Option.some.inj hu
      obtain rfl := Except.ok.inj (hq'.symm.trans hq)
      rfl

omit herrors hrest in
/-- Nothing is sent of a component that was not drawn. -/
theorem Account.sent_undrawn {k : Handle} (hother : ∀ d ∈ v.drawings fuel, d.handle ≠ k) :
    done.components.get? k = none := by
  refine Option.eq_none_iff_forall_ne_some.mpr fun q hq => ?_
  obtain ⟨u, hlast, -⟩ := ha.edits_component (Keyed.mem_of_get? hq)
  obtain ⟨d, hd, hdk, -⟩ := lastDrawn_mem hlast
  exact hother d hd hdk

variable (hnum : v.streams.Numbered) (hnd : (v.keys name).Nodup)
variable (hdel : Delivers name v fuel (v.settle v.streams.plans done p).1
  (v.settle v.streams.plans done p).2)
include hsent hnum hnd hdel

/-- The edits in what was drawn bring the list of the stream along. -/
theorem Account.advances (hplace : v.Redraws fuel place)
    (ht : (v.settle v.streams.plans done p).2.shown place = some t) :
    Advances name (v.keys name) ((v.settle v.streams.plans done p).2.keys name) t.marks
      (Tree.fresh (v.shown place) t) := by
  have hstay (edits : Option StreamEdits) (hin : .hole name edits ∈ t.marks) :
      (v.settle v.streams.plans done p).2.keys name =
        edits.elim (v.keys name) (·.apply (v.keys name)) := by
    cases edits with
    | none =>
        by_contra hne
        exact (ha.drawn_of_changed herrors hsent hrest hnum hnd hdel ht hin hne).2 rfl
    | some e =>
        exact (ha.keys_eq herrors hsent hrest hnum hnd).1 e
          (ha.marks_shown herrors hrest hplace ht _ hin)
  exact ⟨hstay, fun edits hin hfresh =>
    (hstay edits hin).trans (hdel.whole place t edits hplace ht hfresh)⟩

/-- **A pass that delivers the list of a stream brings the client along.** -/
theorem Account.tracks {screen : Screen} (htidy : Tidy none [] v.roster)
    (hfits : ∀ k t, v.roster.tree? k = some t → t.Fits) (hscreen : screen.Tracks name v) :
    (screen.receive (v.settle v.streams.plans done p).1.message).Tracks name
      (v.settle v.streams.plans done p).2 := by
  intro place t ht
  have hadv := fun hplace => ha.advances herrors hsent hrest hnum hnd hdel hplace ht
  cases place with
  | none =>
      obtain rfl : root = t := (ha.root_clean herrors hrest).symm.trans (Option.some.inj ht)
      have hpatch := ha.root_clean herrors hrest ▸ ha.patch
      exact Tree.shows_patch (fun u hu => ⟨hsent u hu, hscreen none u hu⟩) ha.fits hpatch
        (hadv trivial)
  | some k =>
      obtain ⟨hkept, htree⟩ := tree?_of_settle ht
      have hfitted : t.Fits := (ha.brought.suits k t htree).1
      rw [screen.receive_settle hkept]
      rcases ha.tree?_left herrors hrest ht with hlast | ⟨hother, hold⟩
      · obtain ⟨d, hd, hdk, -⟩ := lastDrawn_mem hlast
        obtain ⟨q, hq, hsends⟩ := ha.sent_drawn herrors hrest htidy hlast
        rw [hsends]
        exact Tree.shows_patch (fun u hu => ⟨hfits k u hu, hscreen (some k) u hu⟩) hfitted hq
          (hadv ⟨d, hd, hdk⟩)
      · rw [ha.sent_undrawn hother]
        obtain ⟨spots, hspots, hshows⟩ := hscreen (some k) t hold
        refine ⟨spots, hspots, t.shape.shows_congr none t.fillings spots hfitted
          (fun edits hin => ?_) hshows⟩
        -- keys change only where a hole was drawn
        by_contra hne
        obtain ⟨⟨d, hd, hdk⟩, -⟩ :=
          ha.drawn_of_changed herrors hsent hrest hnum hnd hdel ht hin hne
        exact hother d hd hdk

end Tracks

/-! ## Runs -/

/-- The states of a view of a template after a run without failures, in which every pass that goes
well meets a condition, with what a client keeps that follows the run. -/
inductive Followed (P : View → Nat → Outcome → View → Prop) (host : Host) (template : Template) :
    Screen → View → Prop where
  | start : Followed P host template (fun _ => none) (ofTemplate host template)
  | step {screen : Screen} {v v' : View} {cmd : Command} {answer : Answer} :
      Followed P host template screen v → v.exec cmd = some (answer, v') →
      answer.isClean = true →
      (∀ fuel outcome page, cmd = .render fuel → answer = .rendered (.ok outcome) page →
        P v fuel outcome v') →
      Followed P host template (screen.follow answer) v'

variable {P : View → Nat → Outcome → View → Prop} {host : Host} {template : Template}
variable {screen : Screen} {v' : View}

theorem Followed.reachable (h : Followed P host template screen v) : Reachable host template v := by
  induction h with
  | start => exact .start
  | step _ hexec _ _ ih => exact .step ih hexec

/-- Where nothing is shown, there is nothing to keep. -/
theorem Screen.tracks_of_blank (hnone : ∀ place, v.shown place = none) : screen.Tracks name v :=
  fun place t ht => by cases (hnone place).symm.trans ht

/-- A client still tracks a view that shows the same, and holds the same keys. -/
theorem Screen.Tracks.congr (hscreen : screen.Tracks name v)
    (hshown : ∀ place, v'.shown place = v.shown place) (hkeys : v'.keys name = v.keys name) :
    screen.Tracks name v' := by
  intro place t ht
  rw [hshown] at ht
  rw [hkeys]
  exact hscreen place t ht

/-- Between passes the trees of components stay as they are. -/
theorem Screen.Tracks.withRoster (hscreen : screen.Tracks name v) {r : Roster}
    (htree : ∀ h, r.tree? h = v.roster.tree? h) (unsent : Concerns) :
    screen.Tracks name { v with roster := r, unsent } := by
  refine hscreen.congr (fun place => ?_) rfl
  cases place with
  | none => rfl
  | some h => exact htree h

/-- **The lists of the client.** In a run without failures whose passes deliver the list of a
stream, the client always has the keys that it is taken to hold, in the place where the hole of the
stream is shown. -/
theorem tracks_of_delivered (h : Followed (Delivers name) host template screen v) :
    screen.Tracks name v := by
  induction h with
  | start =>
      refine Screen.tracks_of_blank fun place => ?_
      cases place with
      | none => rfl
      | some h => exact tree?_of_none (by simp [ofTemplate, ofConfig, get?])
  | @step screen v v' cmd answer hv hexec hclean hdel ih =>
      have hstanding := standing_reachable hv.reachable
      cases effect_of_exec hexec with
      | mount id kind props unsent =>
          exact ih.withRoster (fun h => (hstanding.refer id kind props).kept h rfl) unsent
      | unmount id unsent =>
          exact ih.withRoster (retires_unmount v.roster id).tree unsent
      | deliver id props unsent =>
          exact ih.withRoster (fun h => (hstanding.deliver id props).kept h rfl) unsent
      | keyStream other keyOf =>
          exact ih.congr (fun place => by cases place <;> rfl)
            (Streams.getD_held?_keyBy v.streams other keyOf name)
      | changeStream unsent hs =>
          exact ih.congr (fun place => by cases place <;> rfl) (Streams.getD_held?_change hs name)
      | @render fuel result _ hr =>
          rcases render_cases hr with ⟨e, p, hall, rfl, hv'⟩ | ⟨done, p, hall, rfl, rfl⟩
          · rw [render_error hstanding.resting hr]
            exact ih
          · have herrors : (v.settle v.streams.plans done p).1.errors = [] := by
              simpa [Answer.isClean] using hclean
            obtain ⟨root, rs, fs, p₁, p₂, former, ha⟩ := hstanding.account hall
            exact ha.tracks herrors hstanding.sent hstanding.resting
              (numbered_reachable hv.reachable) (nodup_keys hv.reachable name)
              (hdel fuel _ _ rfl rfl) (tidy_reachable hv.reachable)
              (fun k t ht => (hstanding.drawn.suits k t ht).1) ih
      | close =>
          refine Screen.tracks_of_blank fun place => ?_
          cases place with
          | none => rfl
          | some h => exact tree?_of_none (get?_unmountEach hstanding.resting h)
      | _ => exact ih.congr (fun place => by cases place <;> rfl) rfl

/-! ## A list that is folded -/

/-- Whether a view shows nothing but its page, with one hole of each stream at most. -/
def isPage (v : View) : Bool := v.roster.slots.isEmpty && v.sent.all fun t => decide t.streams.Nodup

theorem shown_of_isPage (hv : v.isPage = true) {place : Option Handle} {t : Tree}
    (ht : v.shown place = some t) : place = none ∧ v.sent = some t := by
  cases place with
  | none => exact ⟨rfl, ht⟩
  | some h =>
      have hslots := List.isEmpty_iff.mp (Bool.and_eq_true_iff.mp hv).1
      have hnone : v.roster.tree? h = none := tree?_of_none (by simp [get?, hslots])
      cases hnone.symm.trans ht

theorem single_of_isPage (hv : v.isPage = true) (name : String) : v.SingleHole name where
  once place t ht := by
    have honce := (Bool.and_eq_true_iff.mp hv).2
    rw [(shown_of_isPage hv ht).2] at honce
    exact List.nodup_iff_count_le_one.mp (of_decide_eq_true honce) name
  apart place place' t t' ht ht' _ _ :=
    (shown_of_isPage hv ht).1.trans (shown_of_isPage hv ht').1.symm

/-- Whether a pass draws the page alone, and delivers the list of a stream there. -/
def isDelivered (name : String) (v : View) (fuel : Nat) (v' : View) : Bool :=
  v'.isPage && ((v.drawings fuel).isEmpty && v'.sent.all fun t => (Tree.fresh v.sent t).all fun
    | .hole other edits => other ≠ name ||
        edits.elim (v.keys name) (·.apply (v.keys name)) = edits.elim [] (·.apply [])
    | _ => true)

theorem delivers_of_isDelivered {outcome : Outcome} (h : v.isDelivered name fuel v' = true) :
    Delivers name v fuel outcome v' := by
  obtain ⟨hpage, hrest⟩ := Bool.and_eq_true_iff.mp h
  obtain ⟨hdrawn, hwhole⟩ := Bool.and_eq_true_iff.mp hrest
  refine ⟨single_of_isPage hpage name, fun place t _ _ => ?_, fun place t edits _ ht hin => ?_⟩
  · rintro ⟨earlier, d, later, hsplit, -⟩
    rw [List.isEmpty_iff.mp hdrawn] at hsplit
    simp at hsplit
  · obtain ⟨rfl, hsent⟩ := shown_of_isPage hpage ht
    rw [hsent] at hwhole
    simpa using List.all_eq_true.mp hwhole _ hin

/-- What a check says of a command, if that is a pass. -/
def checkPass (check : View → Nat → View → Bool) (v v' : View) : Command → Bool
  | .render fuel => check v fuel v'
  | _ => true

/-- Carry out commands, as long as nothing fails and a check of every pass succeeds. -/
def runFollowed (check : View → Nat → View → Bool) (screen : Screen) (v : View) :
    List Command → Option (Screen × View)
  | [] => some (screen, v)
  | cmd :: cmds =>
    match v.exec cmd with
    | none => none
    | some (answer, v') =>
      if answer.isClean && checkPass check v v' cmd
      then runFollowed check (screen.follow answer) v' cmds
      else none

theorem Followed.run {check : View → Nat → View → Bool}
    (hcheck : ∀ v fuel outcome v', check v fuel v' = true → P v fuel outcome v')
    {cmds : List Command} {screen' : Screen} (h : Followed P host template screen v)
    (hrun : runFollowed check screen v cmds = some (screen', v')) :
    Followed P host template screen' v' := by
  induction cmds generalizing screen v with
  | nil =>
      obtain ⟨rfl, rfl⟩ := Prod.mk.inj (Option.some.inj hrun)
      exact h
  | cons cmd cmds ih =>
      unfold runFollowed at hrun
      split at hrun
      · cases hrun
      · next answer w hexec =>
          split at hrun
          · next hgood =>
              obtain ⟨hclean, hpass⟩ := Bool.and_eq_true_iff.mp hgood
              refine ih (h.step hexec hclean fun fuel outcome page hcmd _ => ?_) hrun
              rw [hcmd] at hpass
              exact hcheck v fuel outcome w hpass
          · cases hrun

/-- What a run comes to, when a test of it succeeds. -/
theorem followed_of_run {check : View → Nat → View → Bool}
    (hcheck : ∀ v fuel outcome v', check v fuel v' = true → P v fuel outcome v') (host : Host)
    (template : Template) (cmds : List Command) (test : Screen → View → Bool)
    (h : (runFollowed check (fun _ => none) (ofTemplate host template) cmds).any
      (fun x => test x.1 x.2) = true) :
    ∃ screen v, Followed P host template screen v ∧ test screen v = true := by
  obtain ⟨⟨screen, v⟩, hrun, htest⟩ := (Option.any_eq_true ..).mp h
  exact ⟨screen, v, Followed.start.run hcheck hrun, htest⟩

/-- A list of posts that can be folded. -/
def foldedFeed : Template :=
  .hole "" (.choice (Reads.ofTexts ["open"])
    (fun s => (s.get "open").map fun v => if v.same (.bool true) then some 0 else none)
    (.more plainFeed .none)) (.text "")

/-- Fold the list, or unfold it. -/
def setOpen (isOpen : Bool) : Command := .write (.set "open" (.bool isOpen))

/-- A post is sent. The list is folded, and the post is replaced before the list is unfolded. -/
def replacePost : List Command :=
  [setOpen true, addPost, .render 1, setOpen false, .render 1,
    .changeStream "posts" (.deleteKey "posts-1"),
    .changeStream "posts" (.append (.obj [("id", .str "2")])), setOpen true, .render 1]

/-- The client has the new post once the list is unfolded. -/
theorem replacePost_tracked : ∃ screen v page,
    Followed (Delivers "posts") plainHost foldedFeed screen v ∧ v.sent = some page ∧
      "posts" ∈ page.streams ∧ v.keys "posts" = ["posts-2"] ∧ screen.Tracks "posts" v := by
  obtain ⟨screen, v, hv, htest⟩ := followed_of_run (P := Delivers "posts")
    (fun _ _ _ _ => delivers_of_isDelivered) plainHost foldedFeed replacePost
    (fun _ (v : View) => v.keys "posts" = ["posts-2"] &&
      v.sent.any fun t : Tree => "posts" ∈ t.streams)
    (by decide +kernel)
  simp only [Bool.and_eq_true, decide_eq_true_eq, Option.any_eq_true] at htest
  obtain ⟨hkeys, page, hpage, hin⟩ := htest
  exact ⟨screen, v, page, hv, hpage, hin, hkeys, tracks_of_delivered hv⟩

/-- A post is sent. Then the list is folded and unfolded. -/
def foldPost : List Command :=
  [setOpen true, addPost, .render 1, setOpen false, .render 1, setOpen true, .render 1]

/-- The client is taken to hold the post still, though the list that it has now is empty. -/
theorem foldPost_untracked : ∃ screen v page spots,
    Followed (fun _ _ _ v' => ∀ name, v'.SingleHole name) plainHost foldedFeed screen v ∧
      v.sent = some page ∧ "posts" ∈ page.streams ∧ v.keys "posts" = ["posts-1"] ∧
      screen none = some spots ∧ page.Shows "posts" [] spots ∧
      ¬page.Shows "posts" (v.keys "posts") spots := by
  obtain ⟨screen, v, hv, htest⟩ := followed_of_run
    (P := fun _ _ _ v' => ∀ name, v'.SingleHole name) (fun _ _ _ _ => single_of_isPage) plainHost
    foldedFeed foldPost
    (fun (screen : Screen) (v : View) => v.keys "posts" = ["posts-1"] && v.sent.any fun t : Tree =>
      "posts" ∈ t.streams && (screen none).any fun spots : List Spot =>
        t.Shows "posts" [] spots && !decide (t.Shows "posts" (v.keys "posts") spots))
    (by decide +kernel)
  simp only [Bool.and_eq_true, decide_eq_true_eq, Option.any_eq_true, Bool.not_eq_true',
    decide_eq_false_iff_not] at htest
  obtain ⟨hkeys, page, hpage, hin, spots, hspots, hempty, hnot⟩ := htest
  exact ⟨screen, v, page, spots, hv, hpage, hin, hkeys, hspots, hempty, hnot⟩

end ViewSync.View
