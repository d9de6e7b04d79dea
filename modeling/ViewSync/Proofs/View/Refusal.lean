import ViewSync.Proofs.View.FailedRender
import ViewSync.Proofs.Roster.Records

/-!
# Operations on components that fail

Between passes a component is mounted, taken out, or handed props, and each of these may fail: the
id is not in use, or in use by another kind; there may be no more components; or the kind fails. A
component that is not there yet takes in its props before anything is known of it, so that a failure
leaves no trace. One that is live takes them in where it is. If its kind fails then, what was
written up to that point stays, though nothing else is done: the component is not queued, the view
does not count as changed, and the page is not drawn anew on account of it. The write is shown once
the component is drawn for another reason.
-/

namespace ViewSync

namespace Roster

variable {kinds : Kinds} {r r' : Roster} {id : String} {kind : KindRef} {props : Fields}
variable {h : Handle} {c : Component} {a : Assigns} {e e' : Error}

/-- A live component does not take in props: its kind fails, with the assigns as they are then. -/
structure Declines (kinds : Kinds) (r : Roster) (id : String) (props : Fields) (h : Handle)
    (c : Component) (a : Assigns) (e : Error) : Prop where
  /-- The component is live. -/
  handle : r.handle? id = some h
  /-- It has a record. -/
  record : r.get? h = some c
  /-- Its kind fails to take in the props. -/
  failed : (kinds c.kind.key).update props c.assigns = (a, some e)

/-- What is left is the record with the assigns as they were when the kind failed. -/
theorem Declines.deliver (hd : r.Declines kinds id props h c a e) :
    r.deliver kinds id props = (.error e, r.put h { c with assigns := a }) := by
  simp only [Roster.deliver, hd.handle, hd.record, hd.failed]

/-- Between passes a reference comes to the same, since there is nothing to undo. -/
theorem Declines.refer (hd : r.Declines kinds id props h c a e) (hr : r.Resting)
    (hname : c.kind.name = kind.name) :
    r.refer kinds id kind props none = (.error e, r.put h { c with assigns := a }) := by
  have hborn : h ∉ r.stillborn := hr.stillborn ▸ List.not_mem_nil
  have hkeep : r.keepState c = r := by
    unfold keepState recordUndo
    rw [hr.undo, Option.map_none, ← hr.undo]
  simp only [Roster.refer, referLive, hd.handle, hd.record, hd.failed, if_neg hborn, hname,
    ne_eq, not_true_eq_false, if_false, hkeep]
  rfl

/-- Nothing is left of a reference that fails if no props were handed over. -/
theorem eq_of_refer_error (hr : r.refer kinds id kind props none = (.error e, r'))
    (hno : ∀ h c a e', r.Declines kinds id props h c a e' → c.kind.name ≠ kind.name) :
    r' = r := by
  have hspec := refer_spec kinds r id kind props none
  rw [hr] at hspec
  cases hspec with
  | refused => rfl
  | @failed h c e hid hborn hc hfail =>
      -- a component of another kind is not handed anything
      have hname : c.kind.name ≠ kind.name := hno h c _ e ⟨hid, hc, Prod.ext rfl hfail⟩
      simp only [Roster.refer, hid, hc, if_neg hborn, if_pos hname] at hr
      exact (Prod.mk.inj hr).2.symm

theorem eq_of_deliver_error (hr : r.deliver kinds id props = (.error e, r'))
    (hno : ∀ h c a e', ¬r.Declines kinds id props h c a e') : r' = r := by
  unfold Roster.deliver at hr
  split at hr
  · exact (Prod.mk.inj hr).2.symm
  · next h hid =>
      split at hr
      · exact (Prod.mk.inj hr).2.symm
      · next c hc =>
          dsimp only at hr
          split at hr
          · next e' hfail => exact absurd ⟨hid, hc, Prod.ext rfl hfail⟩ (hno h c _ e')
          · cases hr

theorem eq_of_unmount_error (hr : r.unmount id = (.error e, r')) : r' = r := by
  unfold Roster.unmount retire at hr
  cases hid : r.handle? id with
  | none =>
      rw [hid] at hr
      exact (Prod.mk.inj hr).2.symm
  | some h =>
      rw [hid] at hr
      cases hr

end Roster

namespace View

open Roster

variable {host : Host} {template : Template} {v v' : View} {cmd : Command}
variable {h : Handle} {c : Component} {a : Assigns} {e e' : Error}

/-- A command hands props to a live component, whose kind fails with some assigns. -/
inductive Declined (v : View) : Command → Handle → Component → Assigns → Error → Prop
  | mount {id : String} {kind : KindRef} {props : Fields} {h : Handle} {c : Component}
      {a : Assigns} {e : Error} : v.roster.Declines v.host.kinds id props h c a e →
      c.kind.name = kind.name → Declined v (.mount id kind props) h c a e
  | deliver {id : String} {props : Fields} {h : Handle} {c : Component} {a : Assigns}
      {e : Error} : v.roster.Declines v.host.kinds id props h c a e →
      Declined v (.deliver id props) h c a e

/-- The view with other assigns of a component, and nothing else done. -/
def overwrite (v : View) (h : Handle) (c : Component) (a : Assigns) : View :=
  { v with roster := v.roster.put h { c with assigns := a } }

theorem Declined.get? (hd : v.Declined cmd h c a e) : v.roster.get? h = some c := by
  cases hd with
  | mount hd => exact hd.record
  | deliver hd => exact hd.record

/-- Assigns that are as they were make no difference, and all others do. -/
theorem overwrite_eq_iff (hc : v.roster.get? h = some c) :
    v.overwrite h c a = v ↔ a = c.assigns := by
  constructor
  · intro heq
    have hget : (v.overwrite h c a).roster.get? h = some { c with assigns := a } :=
      (get?_put (lt_of_get? hc) _ h).trans (if_pos rfl)
    rw [heq, hc] at hget
    exact (congrArg Component.assigns (Option.some.inj hget)).symm
  · rintro rfl
    exact congrArg (fun roster => { v with roster }) (put_self hc)

/-- The page stays as it is, as it is made from trees. -/
theorem html_overwrite (hc : v.roster.get? h = some c) (a : Assigns) :
    (v.overwrite h c a).html = v.html := by
  have htree (k : Handle) : (v.overwrite h c a).roster.tree? k = v.roster.tree? k := by
    unfold tree? overwrite
    rw [get?_put (lt_of_get? hc)]
    split
    · next hk => rw [hk, hc]; rfl
    · rfl
  have hof (n : Nat) : (v.overwrite h c a).roster.htmlOf n = v.roster.htmlOf n := by
    induction n with
    | zero => rfl
    | succ n ih =>
        funext k
        simp only [htmlOf, htree, ih]
  have hlength : (v.overwrite h c a).roster.slots.length = v.roster.slots.length :=
    length_put v.roster h _
  unfold html
  refine congrArg (Option.map · v.sent) (funext fun t => ?_)
  rw [Roster.html, Roster.html, hlength, hof]

/-! ## Commands that fail -/

theorem withRoster_error {α : Type} {x : Except Error α × Roster}
    (hx : v.withRoster x = (.error e, v')) : x.1 = .error e ∧ v' = { v with roster := x.2 } := by
  obtain ⟨result, roster⟩ := x
  cases result with
  | ok a => cases hx
  | error e' =>
      obtain ⟨he, rfl⟩ := Prod.mk.inj hx
      exact ⟨congrArg Except.error (Except.error.inj he), rfl⟩

/-- A command that fails changes nothing if no props were declined. -/
theorem eq_of_exec_error (hx : v.exec cmd = some (.component (.error e), v'))
    (hno : ∀ h c a e', ¬v.Declined cmd h c a e') : v' = v := by
  -- what the roster has made of the command is all there is to the next state
  have hroster (x : Except Error Handle × Roster)
      (hin : some (Answer.component (v.withRoster x).1, (v.withRoster x).2) =
        some (.component (.error e), v')) : x.1 = .error e ∧ v' = { v with roster := x.2 } := by
    obtain ⟨hanswer, hv'⟩ := Prod.mk.inj (Option.some.inj hin)
    exact withRoster_error (Prod.ext (Answer.component.inj hanswer) hv')
  cases cmd with
  | mount id kind props =>
      cases hreferred : v.roster.refer v.host.kinds id kind props none with
      | mk result roster =>
          rw [exec, View.mount, hreferred] at hx
          obtain ⟨herror, rfl⟩ := hroster (result.map Prod.fst, roster) hx
          cases result with
          | ok a => cases herror
          | error e' =>
              have hsame := eq_of_refer_error hreferred fun h c a e' hd hname =>
                hno h c a e' (.mount hd hname)
              exact congrArg (fun roster => { v with roster }) hsame
  | unmount id =>
      obtain ⟨herror, rfl⟩ := hroster (v.roster.unmount id) hx
      exact congrArg (fun roster => { v with roster }) (eq_of_unmount_error (Prod.ext herror rfl))
  | deliver id props =>
      obtain ⟨herror, rfl⟩ := hroster (v.roster.deliver v.host.kinds id props) hx
      have hsame := eq_of_deliver_error (Prod.ext herror rfl) fun h c a e' hd =>
        hno h c a e' (.deliver hd)
      exact congrArg (fun roster => { v with roster }) hsame
  | _ => cases effect_of_exec hx

/-- **Props that are declined leave the component with what was written until then.** -/
theorem exec_declined (hrest : v.roster.Resting) (hd : v.Declined cmd h c a e) :
    v.exec cmd = some (.component (.error e), v.overwrite h c a) := by
  cases hd with
  | mount hd hname =>
      simp only [exec, View.mount, hd.refer hrest hname]
      rfl
  | deliver hd =>
      simp only [exec, View.deliver, hd.deliver]
      rfl

/-- **What an operation on a component leaves when it fails.** The view is as it was, unless a live
component was handed props, and its kind has written to its assigns before it failed. Then the view
is as it was but for these assigns, and it goes unnoticed: the page is the same, and no pass is due
that was not due before. -/
theorem exec_error (hv : Reachable host template v)
    (hx : v.exec cmd = some (.component (.error e), v')) :
    (v' = v ↔ ∀ h c a e', v.Declined cmd h c a e' → a = c.assigns) ∧
    (∀ h c a e', v.Declined cmd h c a e' → e' = e ∧ v' = v.overwrite h c a) ∧
    v'.html = v.html ∧ v'.isStale = v.isStale := by
  have hdeclined {h : Handle} {c : Component} {a : Assigns} {e' : Error}
      (hd : v.Declined cmd h c a e') : e' = e ∧ v' = v.overwrite h c a := by
    have hexec := exec_declined (resting_reachable hv) hd
    obtain ⟨hanswer, hv'⟩ := Prod.mk.inj (Option.some.inj (hexec.symm.trans hx))
    exact ⟨Except.error.inj (Answer.component.inj hanswer), hv'.symm⟩
  by_cases hany : ∃ h c a e', v.Declined cmd h c a e'
  · obtain ⟨h, c, a, e', hd⟩ := hany
    obtain ⟨-, rfl⟩ := hdeclined hd
    refine ⟨⟨fun heq h c a e' hd => ?_, fun hall => ?_⟩, fun h c a e' => hdeclined,
      html_overwrite hd.get? a, rfl⟩
    · exact (overwrite_eq_iff hd.get?).mp ((hdeclined hd).2.symm.trans heq)
    · exact (overwrite_eq_iff hd.get?).mpr (hall h c a e' hd)
  · have hno : ∀ h c a e', ¬v.Declined cmd h c a e' := fun h c a e' hd =>
      hany ⟨h, c, a, e', hd⟩
    obtain rfl := eq_of_exec_error hx hno
    exact ⟨iff_of_true rfl fun h c a e' hd => absurd hd (hno h c a e'), fun h c a e' => hdeclined,
      rfl, rfl⟩

/-- A page with a form, and its title. -/
def formPage : Template :=
  .hole "" (.component ⟨"form", "form"⟩ (fun _ => .ok "form") fun _ => .ok []) (.text "")

def titledForm : Template :=
  .hole "<b>" (.value (Reads.ofTexts ["title"]) fun s => s.get "title") (.text "</b>")

/-- A kind that takes in props and fails if they are bad, once they are written or, if it is
careful, before. -/
def formKind (careful : Bool) : Kind where
  mount := .ok
  update props a :=
    let (b, _) := a.merge props
    if props.any (·.1 = "bad") then (if careful then a else b, some (.failed "bad")) else (b, none)
  render _ := titledForm

def formHost (careful : Bool) : Host := ⟨fun _ => formKind careful, {}⟩

/-- A view of the page, with a form that was mounted. -/
def formView (careful : Bool) : View :=
  ((ofTemplate (formHost careful) formPage).mount "form" ⟨"form", "form"⟩
    [("title", .str "old")]).2

/-- A new title for the form, along with a prop that it does not take. -/
def badTitle : Command := .deliver "form" [("title", .str "new"), ("bad", .bool true)]

theorem reachable_formView (careful : Bool) :
    Reachable (formHost careful) formPage (formView careful) := by
  have hmount : (ofTemplate (formHost careful) formPage).exec
      (.mount "form" ⟨"form", "form"⟩ [("title", .str "old")]) =
      some (.component (.ok 0), formView careful) := rfl
  exact .step .start hmount

/-- A careful form leaves the view as it was. -/
theorem formView_eq_of_badTitle : ∃ v',
    (formView true).exec badTitle = some (.component (.error (.failed "bad")), v') ∧
    v' = formView true := by
  have hexec : (formView true).exec badTitle = some (.component (.error (.failed "bad")), _) := rfl
  refine ⟨_, hexec, (exec_error (reachable_formView true) hexec).1.mpr fun h c a e' hd => ?_⟩
  cases hd with
  | deliver hd => exact (congrArg Prod.fst hd.failed).symm

theorem render_of_any {fuel : Nat} {page : String} (h : (v.render fuel).any (fun x =>
      x.1.toOption.isSome && x.2.html = some page) = true) :
    ∃ outcome w, v.render fuel = some (.ok outcome, w) ∧ w.html = some page := by
  simp only [Option.any_eq_true, Bool.and_eq_true, decide_eq_true_eq] at h
  obtain ⟨⟨result, w⟩, hr, hok, hhtml⟩ := h
  cases result with
  | error e => cases hok
  | ok outcome => exact ⟨outcome, w, hr, hhtml⟩

/-- A form that is not careful has the new title afterwards, though it was refused. The next pass
shows it. -/
theorem formView_ne_of_badTitle : ∃ v', Reachable (formHost false) formPage (formView false) ∧
    (formView false).exec badTitle = some (.component (.error (.failed "bad")), v') ∧
    v' ≠ formView false ∧
    (∃ outcome w, (formView false).render 1 = some (.ok outcome, w) ∧
      w.html = some "<b>old</b>") ∧
    ∃ outcome w, v'.render 1 = some (.ok outcome, w) ∧ w.html = some "<b>new</b>" := by
  have hexec : ((formView false).exec badTitle).map Prod.fst =
      some (.component (.error (.failed "bad"))) := rfl
  obtain ⟨⟨answer, v'⟩, hexec, rfl⟩ := Option.map_eq_some_iff.mp hexec
  have hold : ∃ outcome w, (formView false).render 1 = some (.ok outcome, w) ∧
      w.html = some "<b>old</b>" := render_of_any (by decide +kernel)
  have hnew : ∃ outcome w, v'.render 1 = some (.ok outcome, w) ∧ w.html = some "<b>new</b>" := by
    refine render_of_any ?_
    obtain rfl := (Prod.mk.inj (Option.some.inj hexec)).2
    decide +kernel
  refine ⟨v', reachable_formView false, hexec, ?_, hold, hnew⟩
  rintro rfl
  obtain ⟨_, w, hr, hhtml⟩ := hold
  obtain ⟨_, w', hr', hhtml'⟩ := hnew
  obtain rfl := (Prod.mk.inj (Option.some.inj (hr.symm.trans hr'))).2
  exact absurd (Option.some.inj (hhtml.symm.trans hhtml')) (by decide)

end View

end ViewSync
