/-!
# Node kinds
-/

namespace TreeAxes

inductive NodeKind where
  | document
  | element
  | attribute
  | text
  | comment
  | processingInstruction
  | namespaceNode
deriving DecidableEq, Repr

namespace NodeKind

/-- All kinds. -/
def all : List NodeKind :=
  [.document, .element, .attribute, .text, .comment, .processingInstruction, .namespaceNode]

/-- The name of a kind in the data model. -/
def name : NodeKind → String
  | .document => "document-node"
  | .element => "element"
  | .attribute => "attribute"
  | .text => "text"
  | .comment => "comment"
  | .processingInstruction => "processing-instruction"
  | .namespaceNode => "namespace-node"

def describe : NodeKind → String
  | .document => "Document"
  | .element => "Element"
  | .attribute => "Attribute"
  | .text => "Text"
  | .comment => "Comment"
  | .processingInstruction => "ProcessingInstruction"
  | .namespaceNode => "Namespace"

end NodeKind

end TreeAxes
