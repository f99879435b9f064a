import Std.Data.HashMap
import TreeAxes.Document.Set
import TreeAxes.Node.Name
import TreeAxes.Node.Ref
import TreeAxes.Tree

/-!
# Stored documents

A document is stored by numbering the nodes of its tree. The numbering has, on every level,
the largest fan-out that the tree needs there; in the window below a node its attributes
come first, then its children. The stored nodes are listed in document order.
-/

namespace TreeAxes

structure StoredNode where
  id : Nat
  kind : NodeKind
  name : Option QName
  value : Option String

namespace Content

def kind : Content → NodeKind
  | element _ => .element
  | text _ => .text
  | comment _ => .comment
  | instruction _ _ => .processingInstruction

def name? : Content → Option String
  | element name => some name
  | instruction target _ => some target
  | text _ | comment _ => none

def value? : Content → Option String
  | element _ => none
  | text value | comment value | instruction _ value => some value

end Content

namespace StoredNode

def ofContent (id : Nat) (content : Content) : StoredNode :=
  ⟨id, content.kind, content.name?.map QName.ofLocal, content.value?⟩

/-- Attributes in consecutive slots. -/
def ofAttributes : Nat → List Attribute → List StoredNode
  | _, [] => []
  | id, a :: as =>
    ⟨id, .attribute, some (.ofLocal a.name), some a.value⟩ :: ofAttributes (id + 1) as

end StoredNode

namespace Tree

mutual

/-- The nodes of a tree whose root has the given identifier, in document order. -/
def place (numbering : Numbering) (id : Nat) : Tree → List StoredNode
  | .node content attributes children =>
    StoredNode.ofContent id content ::
      match numbering.window? id with
      | some window =>
        StoredNode.ofAttributes window.first attributes ++
          placeAll numbering (window.first + attributes.length) children
      | none => []

/-- The nodes of several trees whose roots stand in consecutive slots. -/
def placeAll (numbering : Numbering) (id : Nat) : List Tree → List StoredNode
  | [] => []
  | tree :: trees => place numbering id tree ++ placeAll numbering (id + 1) trees

end

end Tree

/-- Nodes by identifier; of several with one identifier, the first. -/
def indexById (nodes : List StoredNode) : Std.HashMap Nat StoredNode :=
  nodes.foldr (fun node index => index.insert node.id node) ∅

theorem getElem?_indexById (nodes : List StoredNode) (id : Nat) :
    (indexById nodes)[id]? = nodes.find? (·.id = id) := by
  induction nodes with
  | nil => simp [indexById]
  | cons node nodes ih =>
    rw [indexById, List.foldr_cons, ← indexById, Std.HashMap.getElem?_insert, ih, List.find?_cons]
    by_cases h : node.id = id <;> simp [h]

/-- A document and its nodes in document order. -/
structure StoredDocument where
  doc : Document
  nodes : List StoredNode
  index : Std.HashMap Nat StoredNode
  indexed : index = indexById nodes

namespace StoredDocument

def ofNodes (doc : Document) (nodes : List StoredNode) : StoredDocument :=
  ⟨doc, nodes, indexById nodes, rfl⟩

/-- Numbers the nodes of a tree, unless the numbering would be too large. -/
def ofTree (id : DocumentId) (uri : String) (tree : Tree) :
    Except NumberingError StoredDocument :=
  match Numbering.ofFanOut tree.widths with
  | .ok numbering => .ok (ofNodes ⟨id, uri, numbering⟩ (tree.place numbering rootNode))
  | .error fault => .error fault

def node? (d : StoredDocument) (id : Nat) : Option StoredNode := d.index[id]?

theorem node?_eq (d : StoredDocument) (id : Nat) : d.node? id = d.nodes.find? (·.id = id) := by
  rw [node?, d.indexed, getElem?_indexById]

/-- A reference to a stored node. Its identifier is its address. -/
def ref (d : StoredDocument) (node : StoredNode) : NodeRef :=
  { doc := d.doc, id := node.id, kind := node.kind, address := ⟨node.id⟩ }

/-- Nodes of any kind that have a name, in document order. -/
def named (d : StoredDocument) (name : QName) : List StoredNode :=
  d.nodes.filter fun node => node.name.any (·.agrees name)

end StoredDocument

end TreeAxes
