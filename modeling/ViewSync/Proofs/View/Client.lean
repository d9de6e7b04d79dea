import ViewSync.Proofs.View.Standing

/-!
# What a client holds

A client holds content for the page and for each component that it was told of. It applies every
message as it comes: the patch of the root, then those of components, and then it lets go of the
components that are gone. It fails if a patch is meant for content that it does not hold, or does
not fit the content.

A view without streams brings such a client along: after every pass that goes well, the client
holds the content of the page, and of the components that are live and no others.
-/

namespace ViewSync

/-- What a client holds. -/
structure Client where
  /-- The content of the page, once there is one. -/
  root : Option Content := none
  /-- The contents of components, by handle. -/
  components : Keyed Handle Content := []

namespace Client

/-- The contents of components after patches. -/
def patchAll : Keyed Handle Patch → Keyed Handle Content → Option (Keyed Handle Content)
  | [], held => some held
  | (h, p) :: ps, held =>
    match p.applyTo (held.get? h) with
    | none => none
    | some content => patchAll ps (held.insert h content)

/-- Let go of components. -/
def forget (gone : List Handle) (held : Keyed Handle Content) : Keyed Handle Content :=
  held.filter fun e => e.1 ∉ gone

/-- Take in a message. -/
def receive (c : Client) (m : Message) : Option Client :=
  match m.root.applyTo c.root, patchAll m.components c.components with
  | some root, some components => some { root := some root, components := forget m.gone components }
  | _, _ => none

/-- Take in all that a view answers. Only passes, and the end of a view, concern the client. -/
def follow : Client → List View.Answer → Option Client
  | c, [] => some c
  | c, .rendered (.ok outcome) _ :: answers =>
    match c.receive outcome.message with
    | none => none
    | some c => c.follow answers
  | c, .closed gone :: answers => follow { components := forget gone c.components } answers
  | c, _ :: answers => c.follow answers

theorem get?_forget (gone : List Handle) (held : Keyed Handle Content) (h : Handle) :
    (forget gone held).get? h = if h ∈ gone then none else held.get? h := by
  unfold forget
  rw [Keyed.get?_filter_keys held (fun h => h ∉ gone) h]
  by_cases hg : h ∈ gone <;> simp [hg]

/-- Patches that each fit what is held are applied one after the other. -/
theorem patchAll_spec {ps : Keyed Handle Patch} (hnodup : (ps.map Prod.fst).Nodup)
    {new : Handle → Option Content} {held : Keyed Handle Content}
    (hps : ∀ h p, (h, p) ∈ ps → ∃ content, p.applyTo (held.get? h) = some content ∧
      new h = some content)
    (hrest : ∀ h, h ∉ ps.map Prod.fst → held.get? h = new h) :
    ∃ held', patchAll ps held = some held' ∧ ∀ h, held'.get? h = new h := by
  induction ps generalizing held with
  | nil => exact ⟨held, rfl, fun h => hrest h (by simp)⟩
  | cons e ps ih =>
      obtain ⟨k, p⟩ := e
      obtain ⟨hnew, hnodup⟩ := List.nodup_cons.mp hnodup
      obtain ⟨content, happly, hcontent⟩ := hps k p List.mem_cons_self
      simp only [patchAll, happly]
      refine ih hnodup (fun h q hq => ?_) (fun h hh => ?_)
      · -- each component has one patch, so the others find what was held before
        have hne : h ≠ k := by
          have hmem : h ∈ ps.map Prod.fst := List.mem_map_of_mem (f := Prod.fst) hq
          rintro rfl
          exact hnew hmem
        rw [Keyed.get?_insert, if_neg hne]
        exact hps h q (List.mem_cons_of_mem _ hq)
      · rw [Keyed.get?_insert]
        split
        · next heq => rw [heq, hcontent]
        · next hne =>
            refine hrest h fun hmem => ?_
            rcases List.mem_cons.mp hmem with heq | hmem
            · exact hne heq
            · exact hh hmem

theorem follow_cons (client : Client) (answer : View.Answer) (answers : List View.Answer) :
    client.follow (answer :: answers) = (client.follow [answer]).bind (·.follow answers) := by
  cases answer with
  | done => rfl
  | refused e => rfl
  | component result => rfl
  | closed gone => rfl
  | rendered result page =>
      cases result with
      | error e => rfl
      | ok outcome =>
          simp only [follow]
          cases client.receive outcome.message <;> rfl

end Client

namespace View

open Roster

/-! ## Keeping up -/

/-- The client holds the content of the tree that it was sent last, and of every component. -/
structure Synced (client : Client) (v : View) : Prop where
  /-- The view is at rest, without streams. -/
  standing : Standing Shape.StreamFree v
  /-- The client has the page that was sent. -/
  root : client.root = v.sent.map Tree.content
  /-- It has the trees of the components, and no others. -/
  components : ∀ h, client.components.get? h = (v.roster.tree? h).map Tree.content

theorem synced_start {host : Host} {root : Template} (hfree : StreamFree host root) :
    Synced {} (ofTemplate host root) := by
  refine ⟨standing_start hfree.1 hfree.2, rfl, fun h => ?_⟩
  have hempty : (ofTemplate host root).roster.get? h = none := by
    simp [ofTemplate, ofConfig, get?]
  rw [tree?_of_none hempty]
  rfl

namespace Synced

variable {client : Client} {v : View}

/-- A client keeps up with a command that leaves all trees in place. -/
theorem of_trees {v' : View} (hs : Synced client v) (hstanding : Standing Shape.StreamFree v')
    (hsent : v'.sent = v.sent) (htree : ∀ h, v'.roster.tree? h = v.roster.tree? h) :
    Synced client v' where
  standing := hstanding
  root := by rw [hsent, hs.root]
  components h := by rw [htree, hs.components]

/-- Settling a pass brings the client up to date. -/
theorem settle {done : Rendering} {p : Pass} (hs : Synced client v)
    (plans : List (String × Stream.Plan))
    (hbrought : Brought Shape.StreamFree v.roster p.roster done.components)
    (harena : p.roster.Arena) (hroot : Sendable done.root)
    (hpatch : Tree.patchFrom .nowhere v.sent done.root = .ok done.patch) :
    ∃ client', client.receive (v.settle plans done p).1.message = some client' ∧
      Synced client' (v.settle plans done p).2 ∧
      (∃ t, (v.settle plans done p).2.sent = some t) ∧
      ∀ h c, (v.settle plans done p).2.roster.get? h = some c →
        c.retired = false ∧ c.tree ≠ none := by
  have hstanding := hs.standing.settle plans hbrought harena hroot
  have hfits (h : Handle) (t : Tree) (ht : v.roster.tree? h = some t) : t.Fits :=
    (hs.standing.drawn.suits h t ht).1
  unfold View.settle at hstanding ⊢
  dsimp only at hstanding ⊢
  generalize (v.streams.adopt _).holds = holds at hstanding ⊢
  have hretires := retires_closePass p.roster holds
  have hclosed := harena.closePass holds
  generalize (p.roster.closePass holds).2 = r at hretires hclosed hstanding ⊢
  -- a record that is left has been drawn
  have hrecord (h : Handle) (c : Component) (hc : r.tell.2.reclaim.get? h = some c) :
      c.retired = false ∧ c.tree ≠ none := by
    obtain ⟨hc, hlive, -⟩ := get?_reclaim_tell_of_retires hretires hclosed.arena hc
    exact ⟨hlive, hbrought.drawn h c hc hlive⟩
  have happly := Tree.applyTo_patchFrom hroot.2 hs.standing.sent hroot.1 hpatch
  rw [← hs.root] at happly
  have hcomponents : ∃ held, Client.patchAll (done.components.filter fun e => e.1 ∉ r.tell.1)
      client.components = some held ∧ ∀ h, held.get? h =
        if h ∈ r.tell.1 then client.components.get? h else (p.roster.tree? h).map Tree.content := by
    refine Client.patchAll_spec (hbrought.keys.sublist (List.filter_sublist.map Prod.fst))
      (fun h q hq => ?_) (fun h hh => ?_)
    · -- what is sent leads from the tree that the client holds to the new one
      obtain ⟨hq, hnot⟩ := List.mem_filter.mp hq
      have hnot : h ∉ r.tell.1 := by simpa using hnot
      obtain ⟨t, ht, htq⟩ := hbrought.sent h q hq
      have hsend := hbrought.suits h t ht
      refine ⟨t.content, ?_, ?_⟩
      · rw [hs.components]
        exact Tree.applyTo_patchFrom hsend.2 (hfits h) hsend.1 htq
      · rw [if_neg hnot, ht, Option.map_some]
    · split
      · rfl
      · next hnot =>
          -- what is not sent has the content that the client holds
          rw [hs.components, hbrought.unsent hfits]
          intro hmem
          obtain ⟨e, he, rfl⟩ := List.mem_map.mp hmem
          refine hh (List.mem_map_of_mem (f := Prod.fst) (List.mem_filter.mpr ⟨he, ?_⟩))
          simpa using hnot
  obtain ⟨held, hheld, hget⟩ := hcomponents
  refine ⟨⟨some done.root.content, Client.forget r.tell.1 held⟩, ?_, ⟨hstanding, rfl, fun h => ?_⟩,
    ⟨_, rfl⟩, hrecord⟩
  · simp only [Client.receive, happly, hheld]
  · change (Client.forget r.tell.1 held).get? h = (r.tell.2.reclaim.tree? h).map Tree.content
    rw [Client.get?_forget, tree?_reclaim_tell hretires, hget]
    split <;> rfl

/-- A pass that goes well brings the client up to date. -/
theorem render {fuel : Nat} {outcome : Outcome} {v' : View} (hs : Synced client v)
    (hr : v.render fuel = some (.ok outcome, v')) :
    ∃ client', client.receive outcome.message = some client' ∧ Synced client' v' ∧
      (∃ t, v'.sent = some t) ∧
      ∀ h c, v'.roster.get? h = some c → c.retired = false ∧ c.tree ≠ none := by
  obtain ⟨done, p, hall, rfl, rfl⟩ := render_ok hr
  obtain ⟨hbrought, harena, hroot, hpatch⟩ := hs.standing.renderAll hall
  exact hs.settle _ hbrought harena hroot hpatch

/-- Every command is followed. Between passes, operations on components leave the trees alone. -/
theorem exec {cmd : Command} {answer : Answer} {v' : View} (hs : Synced client v)
    (hx : v.exec cmd = some (answer, v')) :
    ∃ client', client.follow [answer] = some client' ∧ Synced client' v' := by
  have hstanding := hs.standing.exec hx
  cases effect_of_exec hx with
  | mount id kind props unsent =>
      have hd := hs.standing.refer id kind props
      exact ⟨client, rfl, hs.of_trees hstanding rfl fun h => hd.kept h rfl⟩
  | unmount id unsent =>
      have hr := retires_unmount v.roster id
      exact ⟨client, rfl, hs.of_trees hstanding rfl hr.tree⟩
  | deliver id props unsent =>
      have hd := hs.standing.deliver id props
      exact ⟨client, rfl, hs.of_trees hstanding rfl fun h => hd.kept h rfl⟩
  | @render fuel result _ hr =>
      cases result with
      | error e =>
          -- nothing is sent, and nothing has changed
          rw [render_error hs.standing.resting hr]
          exact ⟨client, rfl, hs⟩
      | ok outcome =>
          obtain ⟨client', hreceive, hs', -⟩ := hs.render hr
          refine ⟨client', ?_, hs'⟩
          simp only [Client.follow, hreceive]
  | close =>
      have hretires := retires_unmountEach v.roster
      refine ⟨_, rfl, hstanding, rfl, fun h => ?_⟩
      change (Client.forget v.roster.unmountEach.2.tell.1 client.components).get? h =
        (v.roster.unmountEach.2.tell.2.reclaim.tree? h).map Tree.content
      rw [Client.get?_forget, tree?_reclaim_tell hretires, hs.components]
      split <;> rfl
  | _ => exact ⟨client, rfl, hs.of_trees hstanding rfl fun _ => rfl⟩

/-- A client that follows a run keeps up with it. -/
theorem run {cmds : List Command} {answers : List Answer} {v' : View} (hs : Synced client v)
    (hrun : v.run cmds = some (answers, v')) :
    ∃ client', client.follow answers = some client' ∧ Synced client' v' := by
  induction cmds generalizing client v answers with
  | nil =>
      obtain ⟨rfl, rfl⟩ := Prod.mk.inj (Option.some.inj hrun)
      exact ⟨client, rfl, hs⟩
  | cons cmd cmds ih =>
      obtain ⟨answer, rest, w, hexec, hrest, rfl⟩ := run_cons hrun
      obtain ⟨client₁, hfollow, hs₁⟩ := hs.exec hexec
      obtain ⟨client₂, hfollow', hs₂⟩ := ih hs₁ hrest
      refine ⟨client₂, ?_, hs₂⟩
      rw [Client.follow_cons, hfollow]
      exact hfollow'

end Synced

/-! ## The client after a pass -/

/-- The client holds the page, and exactly the components that are live. -/
structure Mirrors (client : Client) (v : View) : Prop where
  /-- The client has the page that was sent. -/
  page : ∃ t, v.sent = some t ∧ client.root = some t.content
  /-- The components that it has are the live ones. -/
  live : ∀ h, client.components.get? h ≠ none ↔ ∃ id, v.roster.handle? id = some h
  /-- It has their trees. -/
  tree : ∀ h content, client.components.get? h = some content →
    ∃ t, v.roster.tree? h = some t ∧ content = t.content

/-- **Patches reconstruct what the view has.** A client that takes in every answer of a run never
fails, and after a pass that goes well it mirrors the view. -/
theorem mirrors_of_render {host : Host} {root : Template} {cmds : List Command}
    {answers : List Answer} {v v' : View} {fuel : Nat} {outcome : Outcome}
    (hfree : StreamFree host root) (hrun : (ofTemplate host root).run cmds = some (answers, v))
    (hrender : v.render fuel = some (.ok outcome, v')) :
    ∃ client client', Client.follow {} answers = some client ∧
      client.receive outcome.message = some client' ∧ Mirrors client' v' := by
  obtain ⟨client, hfollow, hs⟩ := (synced_start hfree).run hrun
  obtain ⟨client', hreceive, hs', ⟨t, hsent⟩, hrecord⟩ := hs.render hrender
  refine ⟨client, client', hfollow, hreceive, ⟨t, hsent, ?_⟩, fun h => ?_, fun h content hh => ?_⟩
  · rw [hs'.root, hsent, Option.map_some]
  · rw [hs'.components, Ne, Option.map_eq_none_iff]
    constructor
    · intro htree
      cases hc : v'.roster.get? h with
      | none => exact absurd (tree?_of_none hc) htree
      | some c =>
          have hlive := (hrecord h c hc).1
          exact ⟨c.id, (hs'.standing.resting.arena.ids_iff c.id h).mpr ⟨c, hc, rfl, hlive⟩⟩
    · rintro ⟨id, hid⟩
      obtain ⟨c, hc, -, -⟩ := (hs'.standing.resting.arena.ids_iff id h).mp hid
      rw [tree?_of_get? hc]
      exact (hrecord h c hc).2
  · rw [hs'.components] at hh
    obtain ⟨t, ht, rfl⟩ := Option.map_eq_some_iff.mp hh
    exact ⟨t, ht, rfl⟩

/-- A page with a title, and a box that can be closed. -/
def boxedPage : Template :=
  .hole "<h1>" (.value (.paths [⟨"title", []⟩]) fun s => s.get "title")
    (.hole "</h1>" (.choice (.paths [⟨"open", []⟩])
      (fun s => (s.get "open").map fun v => if v.same (.bool true) then some 0 else none)
      (.more (.hole "" (.component ⟨"box", "box"⟩ (fun _ => .ok "box") fun s =>
        (s.get "title").map fun v => [("title", v)]) (.text "")) .none)) (.text ""))

/-- The kinds of a page with a box. -/
def boxHost : Host :=
  ⟨fun _ => Kind.ofTemplate (.hole "<b>" (.value (.paths [⟨"title", []⟩]) fun s => s.get "title")
    (.text "</b>")), {}⟩

/-- The page is drawn with the box, which is closed afterwards. -/
def boxedRun : List Command :=
  [.write (.set "title" (.str "news")), .write (.set "open" (.bool true)), .render 5,
    .write (.set "open" (.bool false))]

theorem boxedPage_mirrors :
    ∃ answers v outcome v', (ofTemplate boxHost boxedPage).run boxedRun = some (answers, v) ∧
      v.render 5 = some (.ok outcome, v') ∧
      ∃ client client', Client.follow {} answers = some client ∧
        client.receive outcome.message = some client' ∧ Mirrors client' v' := by
  have hfree : StreamFree boxHost boxedPage :=
    ⟨⟨trivial, ⟨⟨trivial, trivial⟩, trivial⟩, trivial⟩, fun _ _ => ⟨trivial, trivial⟩⟩
  have hgood : ((((ofTemplate boxHost boxedPage).run boxedRun).bind fun x => x.2.render 5).any
      fun y => y.1.isOk) = true := by decide +kernel
  cases hrun : (ofTemplate boxHost boxedPage).run boxedRun with
  | none =>
      rw [hrun] at hgood
      cases hgood
  | some x =>
      obtain ⟨answers, v⟩ := x
      rw [hrun, Option.bind_some] at hgood
      cases hrender : v.render 5 with
      | none =>
          rw [hrender] at hgood
          cases hgood
      | some y =>
          obtain ⟨_ | outcome, v'⟩ := y
          · rw [hrender] at hgood
            cases hgood
          · exact ⟨answers, v, outcome, v', rfl, hrender, mirrors_of_render hfree hrun hrender⟩

end View

end ViewSync
