import TreeAxes.NodeSet.Partition

/-!
# Relations between nodes

A relation says where the nodes that a step looks for stand, seen from the node it starts
at. `Partition.related` finds the entries of a partition in a relation to one node.
-/

namespace TreeAxes

/-- Where a node stands, seen from a context node. -/
inductive Relation where
  /-- Below it, on the next level; attributes count. -/
  | child
  /-- Below it, or the node itself. -/
  | descendant (includeSelf : Bool)
  | parent
  /-- Above it, or the node itself. -/
  | ancestor (includeSelf : Bool)
  | self
  /-- Beside it, below the same parent. -/
  | sibling (direction : Direction)
  /-- Before or after it in document order, neither above nor below it. -/
  | beyond (direction : Direction)
deriving DecidableEq, Repr

namespace Numbering

/-- Whether `id` comes after `pivot` and is not below it, or before and not above it. -/
def isBeyond (n : Numbering) (direction : Direction) (pivot id : Nat) : Bool :=
  match direction with
  | .following => n.compareDocumentOrder pivot id = .lt && !n.isAncestor pivot id
  | .preceding => n.compareDocumentOrder id pivot = .lt && !n.isAncestor id pivot

end Numbering

namespace Partition

/-- Entries on one side of a node in document order, without its ancestors and
descendants and without attributes. -/
def beyond (p : Partition) (node : NodeRef) (direction : Direction) : List NodeRef :=
  p.nodes.filter fun candidate =>
    candidate.kind ≠ .attribute && p.doc.numbering.isBeyond direction node.id candidate.id

/-- Entries that stand in a relation to a node. -/
def related (p : Partition) (relation : Relation) (node : NodeRef) : List NodeRef :=
  match relation with
  | .child => p.children node.id
  | .descendant includeSelf => p.descendants node.id includeSelf
  | .parent => (p.nearest node.id true false).toList
  | .ancestor includeSelf => p.ancestors node.id includeSelf
  | .self => (p.find? node.id).toList
  | .sibling direction => p.siblings node direction
  | .beyond direction => p.beyond node direction

/-- The related entries, marked as reached from the node. -/
def relatedTo (p : Partition) (relation : Relation) (remember : Bool) (node : NodeRef) :
    List NodeRef :=
  (p.related relation node).map (·.reachedFrom node remember)

/-- The node once for each of its children in the partition, marked as reached from it. -/
def asParent (p : Partition) (remember : Bool) (node : NodeRef) : List NodeRef :=
  (p.children node.id).map fun child => node.reachedFrom child remember

end Partition

end TreeAxes
