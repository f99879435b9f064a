import TreeAxes.Step.Basic

/-!
# Streaming

A step whose test has no name is answered without the index. Downward axes give a lazy
result; parents and ancestors follow from identifiers; siblings and what lies beyond are
found by walking the node source.
-/

namespace TreeAxes

namespace NodeRef

/-- What a node climbs through from its level, as elements, nearest first. -/
def climbed (node : NodeRef) : Nat → Nat → List NodeRef
  | 0, _ => []
  | level + 1, id =>
    let parent := node.doc.numbering.parentAt id (level + 1)
    if parent = noNode then []
    else NodeRef.element node.doc parent :: node.climbed level parent

/-- All ancestors of a node, as elements, nearest first. -/
def ancestors (node : NodeRef) : List NodeRef := node.climbed node.level node.id

end NodeRef

namespace Plan

/-- The ancestors of every node. With `includeSelf`, a node whose kind passes the test
comes before its ancestors and keeps the context that it has. -/
def streamAncestors (plan : Plan) (input : NodeSet) (includeSelf remember : Bool) : NodeSet :=
  .ofList (input.nodes.flatMap fun node =>
    let self : List NodeRef :=
      if includeSelf && plan.test.matchesKind node.kind then
        [if remember then node.pushContext node.asContext else node]
      else []
    self ++ node.ancestors.map (·.reachedFrom node remember))

/-- The nodes that a walk from every node visits and that pass the test. -/
def streamWalk (plan : Plan) (input : NodeSet) (remember : Bool) (walk : NodeRef → List Slot) :
    NodeSet :=
  .ofList (input.nodes.flatMap fun node =>
    ((walk node).filter (plan.test.matchesKind ·.kind)).map fun slot =>
      ({ doc := node.doc, id := slot.id, kind := slot.kind } : NodeRef).reachedFrom node remember)

/-- The siblings of a node on one side; an attribute has none. -/
def siblingWalk (source : NodeSource) (direction : Direction) (node : NodeRef) : List Slot :=
  if node.kind = .attribute then [] else source.siblings node.doc node.id direction

/-- The result of a step whose test has no name. -/
def stream (plan : Plan) (source : NodeSource) (input : NodeSet) (remember : Bool) : StepResult :=
  match plan.axis with
  | .child | .attribute | .descendant | .descendantOrSelf | .descendantAttribute =>
    .lazily (.ofContext plan.axis plan.test input remember)
  | .self =>
    if plan.test.kind = .node then
      .nodes (if remember then input.setSelfAsContext else input)
    else .lazily (.ofContext plan.axis plan.test input remember)
  | .parent => .nodes (input.parents remember)
  | .ancestor => .nodes (plan.streamAncestors input false remember)
  | .ancestorOrSelf => .nodes (plan.streamAncestors input true remember)
  | .followingSibling => .nodes (plan.streamWalk input remember (siblingWalk source .following))
  | .precedingSibling => .nodes (plan.streamWalk input remember (siblingWalk source .preceding))
  | .following => .nodes (plan.streamWalk input remember (source.beyond · .following))
  | .preceding => .nodes (plan.streamWalk input remember (source.beyond · .preceding))
  | .namespaceAxis => .empty

end Plan

end TreeAxes
