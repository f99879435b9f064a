import TreeAxes.NodeSet.Query

/-!
# Selectors

A selector filters the candidates of an index scan one by one. It holds a set of context
nodes and a relation, and looks from the candidate back to the context nodes that it
stands in the relation to: its anchors. A candidate that has anchors is selected, with its
context recorded.
-/

namespace TreeAxes

/-- A relation to the nodes of a set that is sorted by identifier. -/
structure Selector where
  relation : Relation
  context : NodeSet
  remember : Bool

namespace Selector

/-- A selector over the nodes of a set, which it sorts. -/
def ofContext (relation : Relation) (context : NodeSet) (remember : Bool) : Selector :=
  ⟨relation, context.sort, remember⟩

/-- Context nodes in one partition that a candidate stands in the relation to, nearest
first. Relations beside a node are not looked up backwards. -/
def anchorsIn (relation : Relation) (p : Partition) (id : Nat) : List NodeRef :=
  match relation with
  | .child => (p.nearest id true false).toList
  | .descendant includeSelf => p.ancestors id includeSelf
  | .parent => p.children id
  | .ancestor includeSelf => p.descendants id includeSelf
  | .self => (p.find? id).toList
  | .sibling _ | .beyond _ => []

def anchors (s : Selector) (candidate : NodeRef) : List NodeRef :=
  match s.context.part? candidate.doc.id with
  | some p => anchorsIn s.relation p candidate.id
  | none => []

/-- Whether a partition holds an anchor, found without listing all of them. -/
def acceptsIn (relation : Relation) (p : Partition) (id : Nat) : Bool :=
  match relation with
  | .child => (p.nearest id true false).isSome
  | .descendant includeSelf => (p.nearest id false includeSelf).isSome
  | .parent => !(p.children id).isEmpty
  | .ancestor includeSelf => (includeSelf && p.contains id) || p.hasDescendant id
  | .self => p.contains id
  | .sibling _ | .beyond _ => false

def accepts (s : Selector) (candidate : NodeRef) : Bool :=
  match s.context.part? candidate.doc.id with
  | some p => acceptsIn s.relation p candidate.id
  | none => false

/-- The candidate with its context recorded, if it has anchors. When the selector
remembers, every anchor joins the context; otherwise the first one's context is inherited. -/
def select? (s : Selector) (candidate : NodeRef) : Option NodeRef :=
  match s.anchors candidate with
  | [] => none
  | first :: rest =>
    if s.remember then
      some (candidate.pushContexts ((first :: rest).map (·.asContext)))
    else some (candidate.copyContext first)

end Selector

end TreeAxes
