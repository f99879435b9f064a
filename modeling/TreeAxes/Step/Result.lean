import TreeAxes.LazyNodes

/-!
# Step results

The result of a step is a node set or is enumerated lazily. A cache entry ties a result to
the input it was computed from and to the documents that it depends on.
-/

namespace TreeAxes

inductive StepResult where
  | nodes (set : NodeSet)
  | lazily (nodes : LazyNodes)

namespace StepResult

def empty : StepResult := .nodes .empty

def isLazy : StepResult → Bool
  | nodes _ => false
  | lazily _ => true

def documents : StepResult → DocumentSet
  | nodes set => set.documents
  | lazily v => v.documents

/-- The number of nodes, if it is known without enumerating or sorting them. -/
def knownSize? : StepResult → Option Nat
  | nodes set => if set.isSorted then some set.rawSize else none
  | lazily _ => none

def toNodeSet (source : NodeSource) : StepResult → NodeSet
  | nodes set => set
  | lazily v => v.realize source

def toDocumentOrder (source : NodeSource) (result : StepResult) : List NodeRef :=
  (result.toNodeSet source).toDocumentOrder

/-- Merges the duplicates of a node set. -/
def deduplicate : StepResult → StepResult
  | nodes set => .nodes set.sort
  | lazily v => .lazily v

end StepResult

/-- Tells instances of node sets apart. -/
structure SetIdentity where
  raw : Nat
deriving DecidableEq, Repr

/-- A node set that keeps its identity while it changes. A copy has another identity. -/
structure InputSet where
  identity : SetIdentity
  nodes : NodeSet

structure CacheEntry where
  identity : SetIdentity
  revision : UInt32
  result : StepResult
  /-- Documents that were searched or that the result has nodes of. -/
  documents : DocumentSet

namespace CacheEntry

def ofResult (input : InputSet) (result : StepResult) (searched : DocumentSet) : CacheEntry :=
  ⟨input.identity, input.nodes.revision, result, result.documents.union searched⟩

/-- An entry answers for the same input at the same revision. -/
def isValid (entry : CacheEntry) (input : InputSet) : Bool :=
  entry.identity = input.identity && entry.revision = input.nodes.revision

/-- Whether a change of a document can affect the result. -/
def touches (entry : CacheEntry) (doc : DocumentId) : Bool := entry.documents.contains doc

end CacheEntry

end TreeAxes
