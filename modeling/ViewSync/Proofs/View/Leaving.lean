import ViewSync.Proofs.View.Sighted

/-!
# What keeps a component

In a run where nothing is taken out by hand and no component fails, a slot that a rendered template
has put into the new page keeps the component that it points at, and so does a slot in the tree of a
component that stays. Components in stream entries are the exception: the client is told of them
when it does not hold their entry any more, though the entry be sent to it in the same message and
dropped there for a limit, or though something else refer to them; and when their entry is rendered
again and nothing that is rendered refers to them.
-/

namespace ViewSync.View

open Roster

/-- A component is in a stream entry that the client does not hold. -/
def InEntryLost (p : Pass) (s : Streams) (h : Handle) : Prop :=
  ∃ c e, p.roster.get? h = some c ∧ c.owner = some e ∧ s.holds e = false

/-- A component is in a stream entry that a pass has rendered, without seeing the component. -/
def InEntryRedrawn (p : Pass) (h : Handle) : Prop :=
  ∃ c e, p.roster.get? h = some c ∧ c.owner = some e ∧ e ∈ p.roster.drawn ∧ h ∉ p.roster.seen

variable {v : View} {fuel : Nat} {done : Rendering} {p : Pass} {h : Handle}
variable {holds : StreamEntry → Bool}

/-- What the client is told of was not seen, or is in a stream entry that is lost. -/
theorem Sighted.lost_of_gone (hs : Sighted v fuel done p)
    (hgone : h ∈ (p.roster.closePass holds).2.tell.1) :
    h ∉ p.roster.seenAtClose holds ∨ ∃ c e, p.roster.get? h = some c ∧ c.owner = some e ∧
      (holds e = false ∨ e ∈ p.roster.drawn ∧ h ∉ p.roster.seen) := by
  have hnew : h ∉ p.roster.retired := by
    rw [hs.retired]
    exact List.not_mem_nil
  obtain ⟨c, hc, -, hleaves⟩ := leaves_of_gone hs.arena hgone hnew
  have hh := hs.arena.handle_eq h c hc
  unfold leaves at hleaves
  split at hleaves
  · next e howner => exact .inr ⟨c, e, hc, howner, by simpa [isLost, hh] using hleaves⟩
  · exact .inl (by simpa [hh] using hleaves)

/-- Whatever a component points at that stays is seen in the end. -/
theorem Sighted.seen_of_slot (hs : Sighted v fuel done p) {id : String} {k : Handle} {t : Tree}
    (hid : (p.roster.closePass holds).2.tell.2.reclaim.handle? id = some k)
    (ht : (p.roster.closePass holds).2.tell.2.reclaim.tree? k = some t) (hin : h ∈ t.handles) :
    h ∈ p.roster.seenAtClose holds := by
  obtain ⟨c, hc, hlive, hstays, htree⟩ := stays_of_handle? hs.arena hid
  have hk := seenAtClose_of_stays hs.arena hc hlive hstays
  exact mem_seenAtClose_of_tree hs.component hk (htree ▸ ht) hin

/-- **What a reference keeps.** If the client is told that a component is gone which a slot of the
new page points at, the component was in a stream entry that the client does not hold. If a slot in
the tree of a live component points at it, it was in such an entry, or in one that the pass has
rendered again, without seeing the component. -/
theorem slots_of_gone {host : Host} {root : Template} {mounted : List Handle} {v' : View}
    {outcome : Outcome} (hv : Undisturbed host root mounted v)
    (hr : v.render fuel = some (.ok outcome, v')) (hclean : outcome.errors = [])
    (hgone : h ∈ outcome.message.gone) :
    ∃ done p, v.renderAll fuel v.opened = some (.ok done, p) ∧
      ((∃ t, v'.sent = some t ∧ h ∈ t.handles) → InEntryLost p v'.streams h) ∧
      ((∃ id k t, v'.roster.handle? id = some k ∧ v'.roster.tree? k = some t ∧ h ∈ t.handles) →
        InEntryLost p v'.streams h ∨ InEntryRedrawn p h) := by
  obtain ⟨done, p, hall, rfl, rfl⟩ := render_ok hr
  have hs := hv.sighted hall hclean
  refine ⟨done, p, hall, ?_, ?_⟩
  · rintro ⟨t, ht, hin⟩
    obtain rfl : done.root = t := Option.some.inj ht
    have hseen := hs.root h hin
    rcases hs.lost_of_gone hgone with hout | ⟨c, e, hc, howner, hlost⟩
    · exact absurd ((followed_followAll p.roster _).before h hseen) hout
    · exact ⟨c, e, hc, howner, hlost.resolve_right fun hdrawn => hdrawn.2 hseen⟩
  · rintro ⟨id, k, t, hid, ht, hin⟩
    rcases hs.lost_of_gone hgone with hout | ⟨c, e, hc, howner, hlost⟩
    · exact absurd (hs.seen_of_slot hid ht hin) hout
    · exact hlost.imp (fun hheld => ⟨c, e, hc, howner, hheld⟩)
        fun hdrawn => ⟨c, e, hc, howner, hdrawn⟩

/-- Cards, and below them notes, each of which shows the label that it names. -/
def cardPage : Template :=
  .hole "<ul>" (.stream "cards" "card" (.hole "<li>"
      (.component ⟨"card", "card"⟩ (fun s => s.string Pass.keyLocal) fun _ => .ok [])
      (.text "</li>")))
    (.hole "</ul>" (.stream "notes" "note" (.hole ""
      (.component ⟨"label", "label"⟩ (fun s => do
        match (← s.get "note").field? "label" with
        | some (.str label) => .ok label
        | _ => .error (.failed "label")) fun _ => .ok [])
      (.text ""))) (.text ""))

/-- Every card shows the shared label. -/
def cardHost : Host :=
  ⟨fun key => Kind.ofTemplate (if key = "card" then
      .hole "<b>" (.component ⟨"label", "label"⟩ (fun _ => .ok "shared") fun _ => .ok [])
        (.text "</b>")
    else .text "<i></i>"), {}⟩

/-- Put a card into the list, which keeps so many. -/
def addCard (id : String) (limit : Option Int) : Command :=
  .changeStream "cards" (.insert (.obj [("id", .str id)]) (-1) limit false)

/-- Put a note in place, with the label that it shows. -/
def putNote (label : String) : Command :=
  .changeStream "notes" (.append (.obj [("id", .str "1"), ("label", .str label)]))

/-- The page has one card and a note that shows the shared label; then a second card is added, which
the limit takes out again. -/
def crowded : List Command :=
  [addCard "1" none, putNote "shared", .render 4, addCard "2" (some 1)]

/-- The same page, where then the note gets a label of its own. -/
def relabelled : List Command :=
  [addCard "1" none, putNote "shared", .render 4, putNote "own"]

/-- The page shows the second card in the message that takes it out. -/
theorem crowded_gone : ∃ mounted v outcome v', Undisturbed cardHost cardPage mounted v ∧
    v.render 4 = some (.ok outcome, v') ∧ outcome.errors = [] ∧ 2 ∈ outcome.message.gone ∧
    ∃ t, v'.sent = some t ∧ 2 ∈ t.handles := by
  obtain ⟨mounted, v, outcome, v', hv, hr, hclean, htest⟩ :=
    undisturbed_of_run cardHost cardPage crowded 4
      (fun _ _ o w => decide (2 ∈ o.message.gone) &&
        w.sent.any fun t => decide (2 ∈ Tree.handles t))
      (by decide +kernel)
  simp only [Bool.and_eq_true, decide_eq_true_eq, Option.any_eq_true] at htest
  exact ⟨mounted, v, outcome, v', hv, hr, hclean, htest⟩

/-- The entry of the second card is one that the client does not hold. -/
theorem crowded_lost : ∃ mounted v outcome v' done p, Undisturbed cardHost cardPage mounted v ∧
    v.render 4 = some (.ok outcome, v') ∧ outcome.errors = [] ∧ 2 ∈ outcome.message.gone ∧
    v.renderAll 4 v.opened = some (.ok done, p) ∧ InEntryLost p v'.streams 2 := by
  obtain ⟨mounted, v, outcome, v', hv, hr, hclean, hgone, hslot⟩ := crowded_gone
  obtain ⟨done, p, hall, hlost, -⟩ := slots_of_gone hv hr hclean hgone
  exact ⟨mounted, v, outcome, v', done, p, hv, hr, hclean, hgone, hall, hlost hslot⟩

/-- Slots that point at what the client is told is gone: one in the page, at the card that its own
message takes out again, and one in a card that stays, at the label that the note gave up. -/
theorem crowded_and_relabelled :
    (∃ mounted v outcome v' t, Undisturbed cardHost cardPage mounted v ∧
      v.render 4 = some (.ok outcome, v') ∧ outcome.errors = [] ∧ 2 ∈ outcome.message.gone ∧
      v'.sent = some t ∧ 2 ∈ t.handles) ∧
    ∃ mounted v outcome v' t, Undisturbed cardHost cardPage mounted v ∧
      v.render 4 = some (.ok outcome, v') ∧ outcome.errors = [] ∧ 1 ∈ outcome.message.gone ∧
      v'.roster.handle? "cards-1" = some 0 ∧ v'.roster.tree? 0 = some t ∧ 1 ∈ t.handles := by
  constructor
  · obtain ⟨mounted, v, outcome, v', hv, hr, hclean, hgone, t, ht, hin⟩ := crowded_gone
    exact ⟨mounted, v, outcome, v', t, hv, hr, hclean, hgone, ht, hin⟩
  · obtain ⟨mounted, v, outcome, v', hv, hr, hclean, htest⟩ :=
      undisturbed_of_run cardHost cardPage relabelled 4
        (fun _ _ o w => decide (1 ∈ o.message.gone) &&
          (decide (w.roster.handle? "cards-1" = some 0) &&
            (w.roster.tree? 0).any fun t => decide (1 ∈ Tree.handles t)))
        (by decide +kernel)
    simp only [Bool.and_eq_true, decide_eq_true_eq, Option.any_eq_true] at htest
    obtain ⟨hgone, hid, t, ht, hin⟩ := htest
    exact ⟨mounted, v, outcome, v', t, hv, hr, hclean, hgone, hid, ht, hin⟩

end ViewSync.View
