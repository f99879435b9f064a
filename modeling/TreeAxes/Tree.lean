/-!
# Trees

A tree describes a node and everything below it: what the node is, its attributes and its
children. Any node may have both.
-/

namespace TreeAxes

structure Attribute where
  name : String
  value : String
deriving DecidableEq, Repr

/-- What a node is, apart from its attributes and children. -/
inductive Content where
  | element (name : String)
  | text (value : String)
  | comment (value : String)
  | instruction (target value : String)
deriving DecidableEq, Repr

inductive Tree where
  | node (content : Content) (attributes : List Attribute) (children : List Tree)
deriving Repr

namespace Tree

def leaf (content : Content) : Tree := .node content [] []

def content : Tree → Content
  | .node content _ _ => content

def attributes : Tree → List Attribute
  | .node _ attributes _ => attributes

def children : Tree → List Tree
  | .node _ _ children => children

def withAttribute (tree : Tree) (name value : String) : Tree :=
  .node tree.content (tree.attributes ++ [⟨name, value⟩]) tree.children

def withChildren (tree : Tree) (children : List Tree) : Tree :=
  .node tree.content tree.attributes (tree.children ++ children)

def withChild (tree child : Tree) : Tree := tree.withChildren [child]

def withText (tree : Tree) (value : String) : Tree := tree.withChild (leaf (.text value))

/-- Slots a tree needs below its root: one for every attribute and every child. -/
def slots (tree : Tree) : Nat := tree.attributes.length + tree.children.length

end Tree

/-- The larger number at every place; where one list ends, the other goes on. -/
def zipMax : List Nat → List Nat → List Nat
  | [], ns => ns
  | ms, [] => ms
  | m :: ms, n :: ns => max m n :: zipMax ms ns

namespace Tree

mutual

/-- The largest number of slots that any node of a level needs, from the root down to the
last level that has nodes below it. -/
def widths : Tree → List Nat
  | .node _ attributes children =>
    if attributes.length + children.length = 0 then []
    else (attributes.length + children.length) :: widthsOfAll children

/-- The same for several trees side by side. -/
def widthsOfAll : List Tree → List Nat
  | [] => []
  | tree :: trees => zipMax tree.widths (widthsOfAll trees)

end

end Tree

end TreeAxes
