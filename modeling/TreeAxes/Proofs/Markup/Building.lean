import Mathlib.Data.List.Chain
import TreeAxes.Markup.Builder

/-!
# What events do to a builder

Events that bring character data extend what is pending; every other event first turns it into a
text node. So only the tree that pending character data makes matters for what a builder comes to.
-/

namespace TreeAxes

namespace Tree

/-- A property that a node has and every node below it. -/
inductive Everywhere (p : Tree → Prop) : Tree → Prop
  | node {content : Content} {attributes : List Attribute} {children : List Tree}
      (here : p (.node content attributes children))
      (below : ∀ child ∈ children, child.Everywhere p) :
    Everywhere p (.node content attributes children)

namespace Everywhere

variable {p q : Tree → Prop} {tree : Tree}

theorem here (h : tree.Everywhere p) : p tree := by
  cases h with
  | node here _ => exact here

theorem of_mem (h : tree.Everywhere p) : ∀ child ∈ tree.children, child.Everywhere p := by
  cases h with
  | node _ below => exact below

theorem leaf {content : Content} (h : p (leaf content)) : (leaf content).Everywhere p :=
  .node h nofun

end Everywhere

def isText (tree : Tree) : Bool :=
  match tree.content with
  | .text _ => true
  | .element _ | .comment _ | .instruction _ _ => false

/-- No two texts stand side by side. -/
def TextsApart (trees : List Tree) : Prop := trees.IsChain fun a b => ¬(a.isText ∧ b.isText)

instance : DecidablePred TextsApart := fun trees =>
  inferInstanceAs (Decidable (trees.IsChain fun a b => ¬(a.isText ∧ b.isText)))

end Tree

namespace Markup

theorem bind_eq_ok_iff {ε α β : Type} {x : Except ε α} {f : α → Except ε β} {b : β} :
    x.bind f = .ok b ↔ ∃ a, x = .ok a ∧ f a = .ok b := by
  cases x <;> simp [Except.bind]

/-- The text node that character data makes, if it is not blank. -/
def textOf (data : List Char) : List Tree :=
  if data.all Text.isBlank then [] else [.leaf (.text (.ofList data))]

theorem textOf_of_blank {data : List Char} (h : data.all Text.isBlank) : textOf data = [] :=
  if_pos h

theorem textOf_of_not_blank {data : List Char} (h : ¬data.all Text.isBlank) :
    textOf data = [.leaf (.text (.ofList data))] := if_neg h

/-! ## Pieces of character data -/

namespace Event

/-- The character data that an event brings. -/
def data? (r : Reader) : Event → Option (List Char)
  | text raw => (r.unescape raw).toOption
  | cdata data => some data
  | reference name => r.reference? name
  | start _ _ | empty _ _ | stop _ | comment _ | declaration => none

/-- Whether an event is a piece of character data. -/
def isPiece : Event → Bool
  | text _ | cdata _ | reference _ => true
  | start _ _ | empty _ _ | stop _ | comment _ | declaration => false

end Event

namespace OpenElement

def withChildren (e : OpenElement) (trees : List Tree) : OpenElement :=
  { e with children := e.children ++ trees }

theorem withChildren_withChildren (e : OpenElement) (first rest : List Tree) :
    (e.withChildren first).withChildren rest = e.withChildren (first ++ rest) := by
  rw [withChildren, withChildren, withChildren, List.append_assoc]

end OpenElement

namespace Builder

variable {r : Reader} {b c : Builder} {event : Event} {fault : Option Fault}

theorem flush_open (e : OpenElement) (es : List OpenElement) (root : Option Tree)
    (pending : List Char) :
    flush ⟨e :: es, root, pending⟩ = ⟨e.withChildren (textOf pending) :: es, root, []⟩ := by
  rw [flush, textOf, OpenElement.withChildren]
  split
  · rw [List.append_nil]
  · rfl

/-- Outside the root, character data is dropped. -/
theorem flush_outside (root : Option Tree) (pending : List Char) :
    flush ⟨[], root, pending⟩ = ⟨[], root, []⟩ := by
  rw [flush]
  split <;> rfl

theorem exists_flush_eq (b : Builder) : ∃ es, b.flush = ⟨es, b.root, []⟩ := by
  obtain ⟨es, root, pending⟩ := b
  cases es with
  | nil => exact ⟨[], flush_outside root pending⟩
  | cons e es => exact ⟨_, flush_open e es root pending⟩

theorem take_of_data {data : List Char} (h : event.data? r = some data) :
    b.take r event = .ok (b.appendText data) := by
  cases event with
  | text raw =>
    rw [Event.data?] at h
    rw [take]
    cases hraw : r.unescape raw with
    | error fault =>
      rw [hraw] at h
      cases h
    | ok value =>
      rw [hraw] at h
      cases h
      rfl
  | cdata data =>
    cases h
    rfl
  | reference name =>
    rw [Event.data?] at h
    rw [take, h]
  | start | empty | stop | comment | declaration => cases h

/-- A piece of character data that is taken brings some. -/
theorem exists_data_of_take (hpiece : event.isPiece) (h : b.take r event = .ok c) :
    ∃ data, event.data? r = some data ∧ c = b.appendText data := by
  cases event with
  | text raw =>
    rw [take] at h
    rw [Event.data?]
    cases hraw : r.unescape raw with
    | error fault =>
      rw [hraw] at h
      cases h
    | ok value =>
      rw [hraw] at h
      cases h
      exact ⟨value, rfl, rfl⟩
  | cdata data =>
    cases h
    exact ⟨data, rfl, rfl⟩
  | reference name =>
    rw [take] at h
    rw [Event.data?]
    cases hname : r.reference? name with
    | none =>
      rw [hname] at h
      cases h
    | some data =>
      rw [hname] at h
      cases h
      exact ⟨data, rfl, rfl⟩
  | start | empty | stop | comment | declaration => cases hpiece

/-! ## Elements -/

theorem openElement_eq_ok_iff {name raw : List Char} {e : OpenElement} :
    openElement r name raw = .ok e ↔
      (r.attributes raw).2 = none ∧
        ∃ attributes, unescapeAll r (r.attributes raw).1 = .ok attributes ∧
          e = ⟨name, attributes, []⟩ := by
  rw [openElement]
  cases unescapeAll r (r.attributes raw).1 with
  | error fault => simp
  | ok attributes => cases (r.attributes raw).2 <;> simp [eq_comm]

/-- An element that is not opened makes the markup malformed. -/
theorem exists_fault_of_openElement {name raw : List Char}
    (h : ∀ e, openElement r name raw ≠ .ok e) :
    ∃ fault, openElement r name raw = .error (.malformed fault) := by
  cases hall : unescapeAll r (r.attributes raw).1 with
  | error fault => exact ⟨fault, by rw [openElement, hall]⟩
  | ok attributes =>
    cases hfault : (r.attributes raw).2 with
    | none => exact absurd (openElement_eq_ok_iff.mpr ⟨hfault, attributes, hall, rfl⟩) (h _)
    | some fault => exact ⟨fault, by rw [openElement, hall, hfault]⟩

/-! ## Sequences of events -/

theorem takeAll_cons (b : Builder) (event : Event) (events : List Event) :
    b.takeAll r (event :: events) = (b.take r event).bind (·.takeAll r events) := rfl

theorem takeAll_append (b : Builder) (first rest : List Event) :
    b.takeAll r (first ++ rest) = (b.takeAll r first).bind (·.takeAll r rest) := by
  induction first generalizing b with
  | nil => rfl
  | cons event first ih =>
    rw [List.cons_append, takeAll_cons, takeAll_cons]
    cases b.take r event with
    | error fault => rfl
    | ok c => exact ih c

theorem readOn_cons (b : Builder) (event : Event) (events : List Event) :
    b.readOn r (event :: events) fault = (b.take r event).bind (·.readOn r events fault) := by
  rw [readOn, takeAll_cons]
  cases b.take r event <;> rfl

/-- What a builder has taken it need not take again. -/
theorem readOn_append {before after : List Event} (h : b.takeAll r before = .ok c) :
    b.readOn r (before ++ after) fault = c.readOn r after fault := by
  rw [readOn, takeAll_append, h]
  rfl

/-- Only the end of all events brings a builder to a tree. -/
theorem readOn_eq_ok_iff {events : List Event} {tree : Tree} :
    b.readOn r events fault = .ok tree ↔
      fault = none ∧ ∃ pending, b.takeAll r events = .ok ⟨[], some tree, pending⟩ := by
  have hfinish {b : Builder} :
      b.finish = .ok tree ↔ ∃ pending, b = ⟨[], some tree, pending⟩ := by
    obtain ⟨es, root, pending⟩ := b
    cases es <;> cases root <;> simp [finish]
  rw [readOn]
  cases b.takeAll r events with
  | error error => simp [bind, Except.bind]
  | ok b => cases fault <;> simp [bind, Except.bind, hfinish]

end Builder

end Markup

end TreeAxes
