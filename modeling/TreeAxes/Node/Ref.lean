import TreeAxes.Document.Basic
import TreeAxes.Node.Kind

/-!
# References to nodes

A reference names one node by document and identifier. Its kind, its storage address and
the nodes it was reached from are annotations: two references are to the same node when
document and identifier agree.
-/

namespace TreeAxes

/-- Where a node is stored: a hint that may be missing. -/
structure StorageAddress where
  raw : Nat
deriving DecidableEq, Repr

namespace StorageAddress

/-- The address of a node whose place is not known. -/
def unknown : StorageAddress := ⟨UInt64.size - 1⟩

def known? (address : StorageAddress) : Option Nat :=
  if address = unknown then none else some address.raw

end StorageAddress

/-- A node that a step started from, as remembered by the nodes it reached. -/
structure ContextNode where
  document : DocumentId
  id : Nat
deriving DecidableEq, Hashable, Repr

namespace ContextNode

def describe (c : ContextNode) : String :=
  s!"ContextNode \x7b document: {c.document.describe}, id: NodeId({c.id}) \x7d"

end ContextNode

structure NodeRef where
  doc : Document
  id : Nat
  kind : NodeKind
  address : StorageAddress := .unknown
  context : List ContextNode := []

namespace NodeRef

def element (doc : Document) (id : Nat) : NodeRef := { doc, id, kind := .element }

/-- What a reference names: two references with the same key are to the same node. -/
def key (node : NodeRef) : DocumentId × Nat := (node.doc.id, node.id)

def level (node : NodeRef) : Nat := node.doc.numbering.levelOf node.id

/-- Identifier of the parent, `noNode` for the root. -/
def parent (node : NodeRef) : Nat := node.doc.numbering.parentOf node.id

/-- The node itself as a context node. -/
def asContext (node : NodeRef) : ContextNode := ⟨node.doc.id, node.id⟩

def hasContext (node : NodeRef) : Bool := !node.context.isEmpty

/-- Remembers one more context node, unless it repeats the last one. -/
def pushContext (node : NodeRef) (c : ContextNode) : NodeRef :=
  if node.context.getLast? = some c then node else { node with context := node.context ++ [c] }

/-- Adds to context nodes listed latest first, unless the latest one is repeated. -/
def pushLatest (latest : List ContextNode) (c : ContextNode) : List ContextNode :=
  if latest.head? = some c then latest else c :: latest

/-- Remembers context nodes one after the other. -/
def pushContexts (node : NodeRef) (cs : List ContextNode) : NodeRef :=
  { node with context := (cs.foldl pushLatest node.context.reverse).reverse }

def clearContext (node : NodeRef) : NodeRef := { node with context := [] }

/-- Takes over the context of another node in place of its own. -/
def copyContext (node other : NodeRef) : NodeRef := { node with context := other.context }

/-- Adds a context node at the end, unless it is there already. -/
def addNew (context : List ContextNode) (c : ContextNode) : List ContextNode :=
  if c ∈ context then context else context ++ [c]

/-- Adds the context nodes of another reference that are not there already. -/
def mergeContext (node other : NodeRef) : NodeRef :=
  { node with context := other.context.foldl addNew node.context }

/-- Marks a node as reached from `anchor`. When steps remember where they started, the
anchor joins its context; otherwise it inherits the anchor's context. -/
def reachedFrom (node anchor : NodeRef) (remember : Bool) : NodeRef :=
  if remember then node.pushContext anchor.asContext else node.copyContext anchor

/-- Document order; nodes of different documents are ordered by document identifier. -/
def compareDocumentOrder (a b : NodeRef) : Ordering :=
  match compare a.doc.id.raw b.doc.id.raw with
  | .eq => a.doc.numbering.compareDocumentOrder a.id b.id
  | unequal => unequal

def text (node : NodeRef) : String := s!"{node.doc.id.text}/{node.id}"

def describe (node : NodeRef) : String :=
  let context := ", ".intercalate (node.context.map ContextNode.describe)
  s!"NodeProxy \x7b doc: {node.doc.id.describe}, id: NodeId({node.id}), " ++
    s!"kind: {node.kind.describe}, context: [{context}] \x7d"

@[simp] theorem pushContext_doc (node : NodeRef) (c : ContextNode) :
    (node.pushContext c).doc = node.doc := by
  unfold pushContext; split <;> rfl

@[simp] theorem pushContext_id (node : NodeRef) (c : ContextNode) :
    (node.pushContext c).id = node.id := by
  unfold pushContext; split <;> rfl

@[simp] theorem pushContext_kind (node : NodeRef) (c : ContextNode) :
    (node.pushContext c).kind = node.kind := by
  unfold pushContext; split <;> rfl

/-- Each context node is remembered as if it came alone. -/
theorem pushContexts_eq_foldl (node : NodeRef) (cs : List ContextNode) :
    node.pushContexts cs = cs.foldl pushContext node := by
  induction cs generalizing node with
  | nil => simp [pushContexts]
  | cons c cs ih =>
    rw [List.foldl_cons, ← ih, pushContexts, pushContexts, pushContext, List.foldl_cons, pushLatest,
      List.head?_reverse]
    split <;> simp

@[simp] theorem mergeContext_doc (node other : NodeRef) :
    (node.mergeContext other).doc = node.doc := rfl

@[simp] theorem mergeContext_id (node other : NodeRef) :
    (node.mergeContext other).id = node.id := rfl

@[simp] theorem mergeContext_kind (node other : NodeRef) :
    (node.mergeContext other).kind = node.kind := rfl

@[simp] theorem reachedFrom_doc (node anchor : NodeRef) (remember : Bool) :
    (node.reachedFrom anchor remember).doc = node.doc := by
  cases remember <;> simp [reachedFrom, copyContext]

@[simp] theorem reachedFrom_id (node anchor : NodeRef) (remember : Bool) :
    (node.reachedFrom anchor remember).id = node.id := by
  cases remember <;> simp [reachedFrom, copyContext]

@[simp] theorem reachedFrom_kind (node anchor : NodeRef) (remember : Bool) :
    (node.reachedFrom anchor remember).kind = node.kind := by
  cases remember <;> simp [reachedFrom, copyContext]

end NodeRef

end TreeAxes
