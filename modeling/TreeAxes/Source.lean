import TreeAxes.Axis
import TreeAxes.Node.Ref
import TreeAxes.Numbering.Window

/-!
# Node sources and walks

A node source knows which slots of a document hold a node, and of which kind. Walks
enumerate the nodes below, beside, after or before a given one by asking the source slot by
slot. Only elements are walked into.
-/

namespace TreeAxes

/-- A slot that holds a node of the given kind. -/
structure Slot where
  id : Nat
  kind : NodeKind
deriving DecidableEq, Repr

/-- What answers for the content of documents: the kind of the node in a slot, if any. -/
structure NodeSource where
  kindOf : Document → Nat → Option NodeKind

namespace Numbering

/-- Climbing makes identifiers smaller, also those that the numbering does not use. -/
theorem parentOf_lt {n : Numbering} {id : Nat} (h : id ≠ noNode) : n.parentOf id < id := by
  unfold parentOf parentAt
  cases hl : n.levelOf id with
  | zero => exact Nat.pos_of_ne_zero h
  | succ level =>
    have hd := n.levelOf_lt_depth id
    obtain ⟨upper, hu⟩ := n.exists_level (i := level) (by omega)
    obtain ⟨own, ho⟩ := n.exists_level (i := level + 1) (by omega)
    obtain ⟨hc, -, heq⟩ := level_next hu ho
    have h1 := first_le h (by rw [hl]; exact ho)
    have h2 := Nat.div_le_self (id - own.first) own.slots
    have h3 : own.first = upper.first + upper.count := by rw [heq]; rfl
    simp only [hu, ho]
    omega

end Numbering

namespace NodeSource

/-- The nodes below `parent`, attributes and children, by ascending identifier. -/
def children (source : NodeSource) (doc : Document) (parent : Nat) : List Slot :=
  match doc.numbering.window? parent with
  | some window => window.ids.filterMap fun id => (source.kindOf doc id).map (⟨id, ·⟩)
  | none => []

/-- The children of a node, or its attributes; a node that is not an element has none. -/
def contents (source : NodeSource) (doc : Document) (node : Slot) : List Slot :=
  if node.kind = .element then
    (source.children doc node.id).filter (·.kind ≠ .attribute)
  else []

def attributes (source : NodeSource) (doc : Document) (node : Slot) : List Slot :=
  if node.kind = .element then
    (source.children doc node.id).filter (·.kind = .attribute)
  else []

theorem depth_sub_levelOf_lt_of_mem_children {source : NodeSource} {doc : Document}
    {parent : Nat} {slot : Slot} (h : slot ∈ source.children doc parent) :
    doc.numbering.depth - doc.numbering.levelOf slot.id <
      doc.numbering.depth - doc.numbering.levelOf parent := by
  unfold children at h
  split at h
  · next window hw =>
    obtain ⟨id, hid, h⟩ := List.mem_filterMap.1 h
    obtain ⟨kind, -, rfl⟩ := Option.map_eq_some_iff.1 h
    exact Numbering.depth_sub_levelOf_lt hw hid
  · simp at h

theorem mem_children_of_mem_contents {source : NodeSource} {doc : Document} {node slot : Slot}
    (h : slot ∈ source.contents doc node) : slot ∈ source.children doc node.id := by
  unfold contents at h
  split at h
  · exact (List.mem_filter.1 h).1
  · simp at h

/-- A node and all nodes below it except attributes, in document order. -/
def subtree (source : NodeSource) (doc : Document) (node : Slot) : List Slot :=
  node :: (source.contents doc node).attach.flatMap fun ⟨child, _⟩ => source.subtree doc child
termination_by doc.numbering.depth - doc.numbering.levelOf node.id
decreasing_by
  exact depth_sub_levelOf_lt_of_mem_children (mem_children_of_mem_contents ‹_›)

/-- The attributes of a node and of all elements below it, in document order. -/
def attributesWithin (source : NodeSource) (doc : Document) (node : Slot) : List Slot :=
  source.attributes doc node ++
    (source.contents doc node).attach.flatMap fun ⟨child, _⟩ => source.attributesWithin doc child
termination_by doc.numbering.depth - doc.numbering.levelOf node.id
decreasing_by
  exact depth_sub_levelOf_lt_of_mem_children (mem_children_of_mem_contents ‹_›)

/-- A slot, whatever it holds, and all nodes below it, attributes included. -/
def everything (source : NodeSource) (doc : Document) (id : Nat) : List Nat :=
  id :: (source.children doc id).attach.flatMap fun ⟨child, _⟩ => source.everything doc child.id
termination_by doc.numbering.depth - doc.numbering.levelOf id
decreasing_by exact depth_sub_levelOf_lt_of_mem_children ‹_›

/-- The siblings of a node on one side, nearest first, without attributes. -/
def siblings (source : NodeSource) (doc : Document) (id : Nat) (direction : Direction) :
    List Slot :=
  let parent := doc.numbering.parentOf id
  if parent = noNode then []
  else
    let beside := (source.children doc parent).filter (·.kind ≠ .attribute)
    match direction with
    | .following => beside.filter (id < ·.id)
    | .preceding => (beside.filter (·.id < id)).reverse

/-- The subtrees beside a node and beside everything it climbs through. -/
def besideClimb (source : NodeSource) (doc : Document) (direction : Direction) (id : Nat) :
    List Slot :=
  if _ : id = noNode then []
  else
    (source.siblings doc id direction).flatMap (source.subtree doc) ++
      source.besideClimb doc direction (doc.numbering.parentOf id)
termination_by id
decreasing_by exact Numbering.parentOf_lt ‹_›

/-- The nodes after or before a node in document order, neither above nor below it. An
attribute stands where its element stands, except that the children of the element come
after it. -/
def beyond (source : NodeSource) (node : NodeRef) (direction : Direction) : List Slot :=
  if node.kind = .attribute then
    let owner := node.parent
    let inside : List Slot := match direction with
      | .following => (source.children node.doc owner).filter (·.kind ≠ .attribute)
      | .preceding => []
    inside.flatMap (source.subtree node.doc) ++ source.besideClimb node.doc direction owner
  else source.besideClimb node.doc direction node.id

end NodeSource

end TreeAxes
