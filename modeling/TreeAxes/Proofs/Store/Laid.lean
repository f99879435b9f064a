import Mathlib.Data.List.Nodup
import TreeAxes.Proofs.Numbering.Preorder
import TreeAxes.Store.Layout

/-!
# Trees laid out in a numbering

A tree is laid out in a numbering if its nodes have identifiers in use, those of children
ascending in the window of their parent. This alone puts the nodes in document order as the
preorder lists them, gives each identifier to one node and keeps depths and parents.
-/

namespace TreeAxes

/-- Trees with a label on every node. -/
inductive Rose (α : Type) where
  | node (label : α) (children : List (Rose α))

namespace Rose

variable {α β : Type} {t s : Rose α}

def label : Rose α → α
  | node a _ => a

def children : Rose α → List (Rose α)
  | node _ ts => ts

@[elab_as_elim, induction_eliminator]
theorem induction {motive : Rose α → Prop}
    (node : ∀ label children, (∀ t ∈ children, motive t) → motive (.node label children)) :
    ∀ t, motive t
  | .node a ts => node a ts fun t _ => induction node t

def map (f : α → β) : Rose α → Rose β
  | node a ts => node (f a) (ts.map (map f))

/-- A tree and all trees below its nodes, in preorder. -/
def subtrees : Rose α → List (Rose α)
  | node a ts => node a ts :: ts.flatMap subtrees

/-- The labels in preorder. -/
def preorder (t : Rose α) : List α := t.subtrees.map label

@[simp] theorem label_map (f : α → β) (t : Rose α) : (t.map f).label = f t.label := by
  cases t
  rw [map, label, label]

@[simp] theorem children_map (f : α → β) (t : Rose α) :
    (t.map f).children = t.children.map (map f) := by
  cases t
  rw [map, children, children]

theorem subtrees_map (f : α → β) (t : Rose α) : (t.map f).subtrees = t.subtrees.map (map f) := by
  induction t with
  | node a ts ih =>
    rw [map, subtrees, subtrees, List.flatMap_map, List.map_cons, List.map_flatMap, map,
      List.flatMap_def, List.flatMap_def, List.map_congr_left ih]

theorem preorder_node (a : α) (ts : List (Rose α)) :
    (node a ts).preorder = a :: ts.flatMap preorder := by
  rw [preorder, subtrees, List.map_cons, List.map_flatMap]
  rfl

theorem self_mem_subtrees (t : Rose α) : t ∈ t.subtrees := by
  cases t
  rw [subtrees]
  exact List.mem_cons_self

theorem mem_subtrees_of_mem_children (hs : s ∈ t.subtrees) {c : Rose α} (hc : c ∈ s.children) :
    c ∈ t.subtrees := by
  induction t with
  | node a ts ih =>
    rw [subtrees, List.mem_cons, List.mem_flatMap] at hs ⊢
    obtain rfl | ⟨t, ht, hs⟩ := hs
    · exact .inr ⟨c, hc, c.self_mem_subtrees⟩
    · exact .inr ⟨t, ht, ih t ht hs⟩

/-- Every subtree but the tree itself stands right below another one. -/
theorem eq_or_exists_parent (hs : s ∈ t.subtrees) :
    s = t ∨ ∃ parent ∈ t.subtrees, s ∈ parent.children := by
  induction t with
  | node a ts ih =>
    rw [subtrees, List.mem_cons, List.mem_flatMap] at hs
    obtain rfl | ⟨t, ht, hs⟩ := hs
    · exact .inl rfl
    · refine .inr ?_
      obtain rfl | ⟨parent, hparent, hs⟩ := ih t ht hs
      · exact ⟨node a ts, self_mem_subtrees _, ht⟩
      · refine ⟨parent, ?_, hs⟩
        rw [subtrees]
        exact List.mem_cons_of_mem _ (List.mem_flatMap.mpr ⟨t, ht, hparent⟩)

/-- A tree laid out in a numbering. -/
inductive Laid (n : Numbering) : Rose StoredNode → Prop where
  | node {a : StoredNode} {ts : List (Rose StoredNode)} (uses : n.Uses a.id)
    (parent : ∀ t ∈ ts, n.parentOf t.label.id = a.id)
    (ascending : ts.Pairwise (·.label.id < ·.label.id)) (below : ∀ t ∈ ts, t.Laid n) :
    (Rose.node a ts).Laid n

/-- Every node stands on the level of its depth, and its parent is the node above it. -/
inductive Seated (n : Numbering) : Nat → Nat → Rose StoredNode → Prop where
  | node {depth parent : Nat} {a : StoredNode} {ts : List (Rose StoredNode)}
    (levelOf_eq : n.levelOf a.id = depth) (parentOf_eq : n.parentOf a.id = parent)
    (below : ∀ t ∈ ts, t.Seated n (depth + 1) a.id) : (Rose.node a ts).Seated n depth parent

namespace Laid

variable {n : Numbering} {t s c : Rose StoredNode} {x : StoredNode}

theorem uses_label (h : t.Laid n) : n.Uses t.label.id := by
  cases h with
  | node uses => exact uses

theorem parentOf_eq (h : t.Laid n) (hc : c ∈ t.children) : n.parentOf c.label.id = t.label.id := by
  cases h with
  | node _ parent => exact parent c hc

theorem pairwise_children (h : t.Laid n) : t.children.Pairwise (·.label.id < ·.label.id) := by
  cases h with
  | node _ _ ascending => exact ascending

theorem of_mem_subtrees (h : t.Laid n) (hs : s ∈ t.subtrees) : s.Laid n := by
  induction h with
  | @node a ts uses parent ascending below ih =>
    rw [subtrees, List.mem_cons, List.mem_flatMap] at hs
    obtain rfl | ⟨t, ht, hs⟩ := hs
    · exact .node uses parent ascending below
    · exact ih t ht hs

theorem uses (h : t.Laid n) (hx : x ∈ t.preorder) : n.Uses x.id := by
  obtain ⟨s, hs, rfl⟩ := List.mem_map.mp hx
  exact (h.of_mem_subtrees hs).uses_label

theorem levelOf_eq (h : t.Laid n) (hc : c ∈ t.children) (hlaid : c.Laid n) :
    n.levelOf c.label.id = n.levelOf t.label.id + 1 := by
  have hparent := h.parentOf_eq hc
  have hne : n.parentOf c.label.id ≠ noNode := hparent ▸ h.uses_label.ne_noNode
  rw [← hlaid.uses_label.levelOf_parentOf hne, hparent]

/-- All nodes are the root or below it. -/
theorem within (h : t.Laid n) (hx : x ∈ t.preorder) : n.Within t.label.id x.id := by
  induction h with
  | @node a ts uses parent ascending below ih =>
    rw [preorder_node, List.mem_cons, List.mem_flatMap] at hx
    obtain rfl | ⟨c, hc, hx⟩ := hx
    · exact .inl rfl
    · have hbelow := below c hc
      exact .inr (Numbering.above_of_within uses hbelow.uses_label (parent c hc)
        (hbelow.uses hx) (ih c hc hx))

/-- In preorder, the nodes stand in document order. -/
theorem pairwise_lt (h : t.Laid n) :
    t.preorder.Pairwise fun a b => n.compareDocumentOrder a.id b.id = .lt := by
  induction h with
  | @node a ts uses parent ascending below ih =>
    have hlaid : (Rose.node a ts).Laid n := .node uses parent ascending below
    rw [preorder_node, List.pairwise_cons, List.pairwise_flatMap]
    refine ⟨fun x hx => ?_, ih, ascending.imp_of_mem fun {c d} hc hd hlt x hx y hy => ?_⟩
    · obtain ⟨c, hc, hx⟩ := List.mem_flatMap.mp hx
      have hbelow := below c hc
      exact Numbering.lt_of_above (hbelow.uses hx) (Numbering.above_of_within uses
        hbelow.uses_label (parent c hc) (hbelow.uses hx) (hbelow.within hx))
    · have hlevel : n.levelOf c.label.id = n.levelOf d.label.id := by
        rw [hlaid.levelOf_eq hc (below c hc), hlaid.levelOf_eq hd (below d hd)]
      exact Numbering.lt_of_within ((below c hc).uses hx) ((below d hd).uses hy) hlevel hlt
        ((below c hc).within hx) ((below d hd).within hy)

theorem nodup (h : t.Laid n) : (t.preorder.map (·.id)).Nodup := by
  refine List.pairwise_map.mpr (h.pairwise_lt.imp fun {a b} hlt heq => ?_)
  have hself : n.compareDocumentOrder b.id b.id = .eq := Std.ReflCmp.compare_self
  rw [heq, hself] at hlt
  cases hlt

/-- An identifier is that of one subtree. -/
theorem eq_of_id (h : t.Laid n) (hs : s ∈ t.subtrees) (hc : c ∈ t.subtrees)
    (hid : s.label.id = c.label.id) : s = c := by
  have hnodup := h.nodup
  rw [preorder, List.map_map] at hnodup
  exact List.inj_on_of_nodup_map hnodup hs hc hid

/-- A node stands below another one only as one of its children. -/
theorem parentOf_eq_iff (h : t.Laid n) (hs : s ∈ t.subtrees) (hc : c ∈ t.subtrees) :
    n.parentOf c.label.id = s.label.id ↔ c ∈ s.children := by
  constructor
  · intro hparent
    obtain rfl | ⟨other, hother, hchild⟩ := eq_or_exists_parent hc
    · have hsuses := (h.of_mem_subtrees hs).uses_label
      have hlevel : n.levelOf s.label.id + 1 = n.levelOf c.label.id := by
        rw [← hparent]
        exact h.uses_label.levelOf_parentOf (hparent ▸ hsuses.ne_noNode)
      have hwithin := h.within (List.mem_map_of_mem hs)
      obtain heq | hancestor := (Numbering.within_iff hsuses).mp hwithin
      · rw [heq] at hlevel
        omega
      · have := (Numbering.isAncestor_iff.mp hancestor).1
        omega
    · rw [(h.of_mem_subtrees hother).parentOf_eq hchild] at hparent
      exact h.eq_of_id hother hs hparent ▸ hchild
  · exact (h.of_mem_subtrees hs).parentOf_eq

theorem seated (h : t.Laid n) :
    t.Seated n (n.levelOf t.label.id) (n.parentOf t.label.id) := by
  induction h with
  | @node a ts uses parent ascending below ih =>
    have hlaid : (Rose.node a ts).Laid n := .node uses parent ascending below
    refine .node rfl rfl fun c hc => ?_
    have hseated := ih c hc
    rwa [hlaid.levelOf_eq hc (below c hc), parent c hc] at hseated

end Laid

end Rose

end TreeAxes
