/-!
# Axes

An axis is the direction of a step through a tree.
-/

namespace TreeAxes

inductive Axis where
  | child
  | descendant
  | descendantOrSelf
  | ancestor
  | ancestorOrSelf
  | parent
  | self
  | attribute
  /-- Attributes of the context node and of all its descendants. -/
  | descendantAttribute
  | followingSibling
  | precedingSibling
  | following
  | preceding
  | namespaceAxis
deriving DecidableEq, Repr

namespace Axis

def all : List Axis :=
  [.child, .descendant, .descendantOrSelf, .ancestor, .ancestorOrSelf, .parent, .self,
    .attribute, .descendantAttribute, .followingSibling, .precedingSibling, .following,
    .preceding, .namespaceAxis]

def name : Axis → String
  | .child => "child"
  | .descendant => "descendant"
  | .descendantOrSelf => "descendant-or-self"
  | .ancestor => "ancestor"
  | .ancestorOrSelf => "ancestor-or-self"
  | .parent => "parent"
  | .self => "self"
  | .attribute => "attribute"
  | .descendantAttribute => "descendant-attribute"
  | .followingSibling => "following-sibling"
  | .precedingSibling => "preceding-sibling"
  | .following => "following"
  | .preceding => "preceding"
  | .namespaceAxis => "namespace"

def ofName? (name : String) : Option Axis := all.find? (·.name = name)

def describe : Axis → String
  | .child => "Child"
  | .descendant => "Descendant"
  | .descendantOrSelf => "DescendantOrSelf"
  | .ancestor => "Ancestor"
  | .ancestorOrSelf => "AncestorOrSelf"
  | .parent => "Parent"
  | .self => "SelfAxis"
  | .attribute => "Attribute"
  | .descendantAttribute => "DescendantAttribute"
  | .followingSibling => "FollowingSibling"
  | .precedingSibling => "PrecedingSibling"
  | .following => "Following"
  | .preceding => "Preceding"
  | .namespaceAxis => "Namespace"

/-- On a reverse axis, positions count from the context node outwards. -/
def isReverse : Axis → Bool
  | .ancestor | .ancestorOrSelf | .parent | .precedingSibling | .preceding => true
  | _ => false

/-- Whether the axis leads to attributes rather than to elements and their like. -/
def isAttributeAxis : Axis → Bool
  | .attribute | .descendantAttribute => true
  | _ => false

end Axis

/-- The side of a node on which siblings, or nodes in document order, lie. -/
inductive Direction where
  | following
  | preceding
deriving DecidableEq, Repr

end TreeAxes
