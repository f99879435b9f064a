import TreeAxes.NodeSet.Query
import TreeAxes.NodeTest
import TreeAxes.Source

/-!
# Lazily enumerated nodes

The result of a wildcard step can be kept as what it was asked: an axis, a test and the
context nodes. Whether a node belongs to it follows from identifiers alone; its nodes are
enumerated from a node source when they are needed.

Context nodes that stand below another one are left out as roots of an enumeration that
goes through whole subtrees, so that no node is enumerated twice.
-/

namespace TreeAxes

namespace Axis

/-- Whether the axis leads through the whole subtree below a context node. -/
def spansSubtree : Axis → Bool
  | .descendant | .descendantOrSelf | .descendantAttribute => true
  | _ => false

end Axis

/-- Nodes reached over an axis from the nodes of a set sorted by identifier. -/
structure LazyNodes where
  axis : Axis
  test : NodeTest
  context : NodeSet
  roots : List NodeRef
  remember : Bool

namespace LazyNodes

/-- Whether no node of a sorted set stands above the given one. -/
def isOutermost (context : NodeSet) (node : NodeRef) : Bool :=
  (context.part? node.doc.id).all fun p => (p.nearest node.id false false).isNone

/-- The nodes that pass a test, seen over an axis from the nodes of a set. -/
def ofContext (axis : Axis) (test : NodeTest) (context : NodeSet) (remember : Bool) :
    LazyNodes :=
  let context := context.sort
  let roots := context.toDocumentOrder
  { axis, test, context, remember
    roots := if axis.spansSubtree then roots.filter (isOutermost context) else roots }

/-- Documents that nodes can be from. -/
def documents (v : LazyNodes) : DocumentSet := v.context.documents

/-- Whether a node belongs to the result, decided without a node source. -/
def accepts (v : LazyNodes) (node : NodeRef) : Bool :=
  v.test.matchesKind node.kind &&
    match v.context.part? node.doc.id with
    | none => false
    | some p =>
      let isAttribute : Bool := node.kind = .attribute
      match v.axis with
      | .child => !isAttribute && (p.nearest node.id true false).isSome
      | .attribute => isAttribute && (p.nearest node.id true false).isSome
      | .descendant => !isAttribute && (p.nearest node.id false false).isSome
      | .descendantOrSelf => !isAttribute && (p.nearest node.id false true).isSome
      | .descendantAttribute => isAttribute && (p.nearest node.id false false).isSome
      | .self => p.contains node.id
      | _ => false

/-- The nodes that the axis leads to from one root, whether they pass the test or not. -/
def reach (v : LazyNodes) (source : NodeSource) (root : NodeRef) : List Slot :=
  let slot : Slot := ⟨root.id, root.kind⟩
  match v.axis with
  | .self => [slot]
  | .child => source.contents root.doc slot
  | .attribute => source.attributes root.doc slot
  | .descendant => (source.contents root.doc slot).flatMap (source.subtree root.doc)
  | .descendantOrSelf => source.subtree root.doc slot
  | .descendantAttribute => source.attributesWithin root.doc slot
  | _ => []

/-- A reached node with its context recorded. When the result remembers and spans subtrees,
every context node above it counts, not only its root. -/
def makeRef (v : LazyNodes) (root : NodeRef) (slot : Slot) : NodeRef :=
  let node : NodeRef := { doc := root.doc, id := slot.id, kind := slot.kind }
  if v.remember && v.axis.spansSubtree then
    let anchors : List NodeRef := match v.context.part? root.doc.id with
      | some p => p.ancestors slot.id (decide (v.axis = .descendantOrSelf))
      | none => []
    node.pushContexts (anchors.map (·.asContext))
  else node.reachedFrom root v.remember

/-- All nodes of the result, root by root. -/
def enumerate (v : LazyNodes) (source : NodeSource) : List NodeRef :=
  v.roots.flatMap fun root =>
    ((v.reach source root).filter (v.test.matchesKind ·.kind)).map (v.makeRef root)

/-- The result as a node set. -/
def realize (v : LazyNodes) (source : NodeSource) : NodeSet :=
  (NodeSet.ofList (v.enumerate source)).sort

def describe (v : LazyNodes) : String :=
  s!"VirtualNodeSet \x7b axis: {v.axis.describe}, test: {v.test.describe}, " ++
    s!"roots: {v.roots.length}, remember_context: {v.remember}, .. \x7d"

end LazyNodes

end TreeAxes
