import Mathlib.Logic.Relation
import ViewSync.Proofs.Assigns.Merging
import ViewSync.Proofs.Template.Filled

/-!
# Libraries of component kinds

What the kinds of a view are called, which template each of them renders, and what its props are
called. A library is regular for a view when every component is made of its props and of nothing
else: the kinds take in props as they are, every hole that refers to a kind hands over all of its
props, and no component can come to contain another one of its kind.
-/

namespace ViewSync

/-- A template without streams that says what it reads, and reads values only. -/
structure Template.Regular (t : Template) : Prop where
  /-- Its callbacks read no more than it says. -/
  reads : t.ReadsOnly []
  /-- No negative zero comes from them. -/
  makes : t.Makes Value.Plain
  /-- They read values only. -/
  values : t.ValuesOnly
  /-- It has no stream hole. -/
  free : t.shape.StreamFree

/-- The template of each kind and the names of its props. -/
structure Library where
  /-- The template of a kind. -/
  template : String → Template
  /-- The names of the props of a kind. -/
  names : String → List String

namespace Library

/-- A kind of component refers to another one. -/
def Uses (l : Library) (kind other : String) : Prop :=
  ∃ e ∈ (l.template kind).references, e.1.name = other

/-- The component holes of a template refer to kinds of the library, and hand over their props. -/
def Serves (l : Library) (kinds : Kinds) (t : Template) : Prop :=
  ∀ e ∈ t.references, kinds e.1.key = Kind.ofTemplate (l.template e.1.name) ∧
    ∀ s fields, e.2 s = .ok fields → (fields.map Prod.fst).Perm (l.names e.1.name)

/-- All kinds of a view render templates from their props, one for each kind and never inside of
one another, and all references to a kind hand over props of the same names. -/
structure Regular (l : Library) (host : Host) (root : Template) : Prop where
  /-- Every kind renders a regular template from its props. -/
  kinds : ∀ key, ∃ t, host.kinds key = Kind.ofTemplate t ∧ t.Regular
  /-- The root is regular. -/
  regular : root.Regular
  /-- The library has what the root refers to. -/
  serves_root : l.Serves host.kinds root
  /-- It has what its own templates refer to. -/
  serves : ∀ kind, l.Serves host.kinds (l.template kind)
  /-- No prop is named twice. -/
  nodup : ∀ kind, (l.names kind).Nodup
  /-- No kind is rendered inside of itself. -/
  acyclic : ∀ kind, ¬Relation.TransGen l.Uses kind kind

/-- A reference as a template makes it: to a kind of the library, with its props. -/
structure Suits (l : Library) (kinds : Kinds) (t : Template) (ref : Reference) : Prop where
  /-- The template refers to the kind. -/
  used : ∃ e ∈ t.references, e.1 = ref.kind
  /-- The kind renders the template that the library has for it. -/
  kind : kinds ref.kind.key = Kind.ofTemplate (l.template ref.kind.name)
  /-- The props have the names that the library has for it. -/
  props : ref.props.Fit (l.names ref.kind.name)

variable {l : Library} {kinds : Kinds} {host : Host} {root t : Template}

theorem Serves.suits (h : l.Serves kinds t) : Asks (l.Suits kinds t) t.references :=
  fun e he s _ fields _ hfields hplain =>
    ⟨⟨e, he, rfl⟩, (h e he).1, ⟨(h e he).2 s fields hfields, hplain⟩⟩

theorem Suits.uses {kind : String} {ref : Reference}
    (h : l.Suits kinds (l.template kind) ref) : l.Uses kind ref.kind.name := by
  obtain ⟨e, he, heq⟩ := h.used
  exact ⟨e, he, congrArg KindRef.name heq⟩

namespace Regular

variable (h : l.Regular host root)
include h

theorem tracking (on : Bool) : l.Regular (host.tracking on) root :=
  ⟨h.kinds, h.regular, h.serves_root, h.serves, h.nodup, h.acyclic⟩

/-- What the library says of a kind that a reference names is regular. -/
theorem template {kind : KindRef} (hkind : host.kinds kind.key =
    Kind.ofTemplate (l.template kind.name)) : (l.template kind.name).Regular := by
  obtain ⟨t, ht, hregular⟩ := h.kinds kind.key
  have hsame : t = l.template kind.name :=
    congrArg (fun k => Kind.render k Assigns.empty) (ht.symm.trans hkind)
  exact hsame ▸ hregular

theorem streamFree (key : String) (a : Assigns) :
    ((host.kinds key).render a).shape.StreamFree := by
  obtain ⟨t, ht, hregular⟩ := h.kinds key
  rw [ht]
  exact hregular.free

end Regular

end Library

end ViewSync
