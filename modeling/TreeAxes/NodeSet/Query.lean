import TreeAxes.NodeSet.Basic
import TreeAxes.NodeSet.Relation

/-!
# Queries on node sets

A query answers and leaves the set in the order it needed. The joins treat a set as
candidates: they keep the candidates that stand in a relation to some context node, each
with its context recorded, and give them as a new set.
-/

namespace TreeAxes

namespace NodeSet

/-- Number of distinct nodes. Only an unsorted set is sorted for it. -/
def size (s : NodeSet) : Nat × NodeSet :=
  if s.isSorted then (s.rawSize, s) else (s.sort.rawSize, s.sort)

def get? (s : NodeSet) (doc : DocumentId) (id : Nat) : Option NodeRef × NodeSet :=
  (s.sort.lookup? doc id, s.sort)

def contains (s : NodeSet) (doc : DocumentId) (id : Nat) : Bool × NodeSet :=
  ((s.sort.lookup? doc id).isSome, s.sort)

/-- The node at a position in document order, counted from zero. -/
def getAt? (s : NodeSet) (position : Nat) : Option NodeRef × NodeSet :=
  (s.sortInDocumentOrder.nodes[position]?, s.sortInDocumentOrder)

/-- Removes a node and says whether it was there. -/
def remove (s : NodeSet) (node : NodeRef) : Bool × NodeSet :=
  if (s.sort.lookup? node.doc.id node.id).isSome then
    (true, s.sort.erase node.doc.id node.id)
  else (false, s.sort)

/-- All nodes, by document and identifier. -/
def iterate (s : NodeSet) : Cursor × NodeSet := (s.sort.cursor, s.sort)

def iterateInDocumentOrder (s : NodeSet) : Cursor × NodeSet :=
  (s.sortInDocumentOrder.cursor, s.sortInDocumentOrder)

/-- All nodes in document order, without duplicates. -/
def toDocumentOrder (s : NodeSet) : List NodeRef := s.sortInDocumentOrder.nodes

/-- The nodes of a document with identifiers from `lower` to `upper`. -/
def range (s : NodeSet) (doc : DocumentId) (lower upper : Nat) : NodeSet × NodeSet :=
  let found := match s.sort.part? doc with
    | some p => p.range lower upper
    | none => []
  (ofList found, s.sort)

/-- The nearest node above an identifier; see `Partition.nearest`. -/
def nearest? (s : NodeSet) (doc : DocumentId) (id : Nat) (directOnly includeSelf : Bool)
    (level : Option Nat) : Option NodeRef × NodeSet :=
  ((s.sort.part? doc).bind (·.nearest id directOnly includeSelf level), s.sort)

/-- The entries of a sorted set that stand in a relation to one node, marked as reached
from it. -/
def relatedTo (s : NodeSet) (relation : Relation) (remember : Bool) (node : NodeRef) :
    List NodeRef :=
  match s.part? node.doc.id with
  | some p => p.relatedTo relation remember node
  | none => []

/-- Joins a sorted set of candidates with a set of context nodes. -/
def join (candidates context : NodeSet) (relation : Relation) (remember : Bool) : NodeSet :=
  ofList (context.nodes.flatMap (candidates.relatedTo relation remember))

/-- The candidates in a relation to some context node. -/
def select (candidates context : NodeSet) (relation : Relation) (remember : Bool) :
    NodeSet × NodeSet :=
  (candidates.sort.join context relation remember, candidates.sort)

/-- The node once for each of its children in the set, marked as reached from that child. -/
def asParent (s : NodeSet) (node : NodeRef) (remember : Bool) : NodeSet × NodeSet :=
  let found := match s.sort.part? node.doc.id with
    | some p => p.asParent remember node
    | none => []
  (ofList found, s.sort)

/-- The children of a node in the set. -/
def childrenOf (s : NodeSet) (node : NodeRef) (remember : Bool) : NodeSet × NodeSet :=
  (ofList (s.sort.relatedTo .child remember node), s.sort)

/-- The parents of all nodes, as elements. The root has none. -/
def parents (s : NodeSet) (remember : Bool) : NodeSet :=
  ofList (s.nodes.filterMap fun node =>
    if node.parent = noNode then none
    else some ((NodeRef.element node.doc node.parent).reachedFrom node remember))

end NodeSet

end TreeAxes
