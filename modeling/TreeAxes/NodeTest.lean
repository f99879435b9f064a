import TreeAxes.Node.Kind
import TreeAxes.Node.Name

/-!
# Node tests

A node test filters by kind and, if it has a name, by name. A test without a name is a
wildcard.
-/

namespace TreeAxes

inductive TestKind where
  /-- Any node at all. -/
  | node
  | element
  | attribute
  | text
  | comment
  | processingInstruction
deriving DecidableEq, Repr

namespace TestKind

def all : List TestKind := [.node, .element, .attribute, .text, .comment, .processingInstruction]

def name : TestKind → String
  | .node => "node"
  | .element => "element"
  | .attribute => "attribute"
  | .text => "text"
  | .comment => "comment"
  | .processingInstruction => "processing-instruction"

def describe : TestKind → String
  | .node => "Node"
  | .element => "Element"
  | .attribute => "Attribute"
  | .text => "Text"
  | .comment => "Comment"
  | .processingInstruction => "ProcessingInstruction"

end TestKind

structure NodeTest where
  kind : TestKind
  name : Option QName := none
deriving Repr

namespace NodeTest

def anyNode : NodeTest := { kind := .node }

def anyElement : NodeTest := { kind := .element }

def anyAttribute : NodeTest := { kind := .attribute }

def text : NodeTest := { kind := .text }

def comment : NodeTest := { kind := .comment }

def namedElement (name : QName) : NodeTest := { kind := .element, name := some name }

def namedAttribute (name : QName) : NodeTest := { kind := .attribute, name := some name }

def isWildcard (test : NodeTest) : Bool := test.name.isNone

def matchesKind (test : NodeTest) (kind : NodeKind) : Bool :=
  match test.kind with
  | .node => true
  | .element => kind = .element
  | .attribute => kind = .attribute
  | .text => kind = .text
  | .comment => kind = .comment
  | .processingInstruction => kind = .processingInstruction

/-- Whether an element can pass the test at all. -/
def mayMatchElement (test : NodeTest) : Bool :=
  match test.kind with
  | .node | .element => true
  | _ => false

/-- Whether two tests have the same kind and names that agree. -/
def agrees (a b : NodeTest) : Bool :=
  a.kind = b.kind &&
    match a.name, b.name with
    | none, none => true
    | some m, some n => m.agrees n
    | _, _ => false

/-- The test as it is written in a path. -/
def pathText (test : NodeTest) : String :=
  match test.kind, test.name with
  | .element, some name => name.text
  | .element, none => "*"
  | .attribute, some name => "@" ++ name.text
  | .attribute, none => "@*"
  | .node, _ => "node()"
  | .text, _ => "text()"
  | .comment, _ => "comment()"
  | .processingInstruction, _ => "processing-instruction()"

def describe (test : NodeTest) : String :=
  let name := match test.name with
    | none => "None"
    | some name => s!"Some({name.text})"
  s!"NodeTest \x7b kind: {test.kind.describe}, name: {name} \x7d"

end NodeTest

end TreeAxes
