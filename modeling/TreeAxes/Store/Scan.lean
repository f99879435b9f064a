import TreeAxes.Selector
import TreeAxes.Source
import TreeAxes.Store.Basic

/-!
# Index scans

A scan looks through documents for elements or attributes of a name and can filter what it
finds with a selector. It reads one document after the other, and other parties may change
the store meanwhile: an index says which changes come before a document is read and which
follow a scan that succeeded.
-/

namespace TreeAxes

inductive IndexError where
  | io (context message : String)
deriving DecidableEq, Repr

namespace IndexError

def message : IndexError → String
  | io context message => s!"element index I/O error in {context}: {message}"

/-- The failure that `Store.failNextScan` asks for. -/
def injected : IndexError := .io "find_elements_by_tag_name" "injected failure"

end IndexError

/-- The kinds of nodes that are indexed by name. -/
inductive IndexedKind where
  | element
  | attribute
deriving DecidableEq, Repr

namespace IndexedKind

def nodeKind : IndexedKind → NodeKind
  | .element => .element
  | .attribute => .attribute

end IndexedKind

/-- What a scan looks for in a document. -/
structure ScanRequest where
  kind : IndexedKind
  name : QName
  selector : Option Selector := none

namespace ScanRequest

/-- What the request takes from one stored document, in document order. -/
def hits (request : ScanRequest) (stored : StoredDocument) : List NodeRef :=
  (stored.named request.name).filterMap fun node =>
    if node.kind = request.kind.nodeKind then
      match request.selector with
      | some selector => selector.select? (stored.ref node)
      | none => some (stored.ref node)
    else none

end ScanRequest

namespace Store

/-- A change of a store by one of its operations. -/
inductive Change where
  | add (uri : String) (tree : Tree)
  | replace (id : DocumentId) (uri : String) (tree : Tree)
  | touch (id : DocumentId)
  | remove (id : DocumentId)

def apply (store : Store) : Change → Store
  | .add uri tree => (store.add uri tree).2
  | .replace id uri tree => (store.replace id uri tree).2
  | .touch id => (store.touch id).2
  | .remove id => (store.remove id).2

def applyAll (store : Store) (changes : List Change) : Store := changes.foldl apply store

/-- What a request takes from a document as it is stored now; nothing from an unknown one. -/
def hitsIn (store : Store) (request : ScanRequest) (doc : DocumentId) : List NodeRef :=
  match store.document? doc with
  | some stored => request.hits stored
  | none => []

/-- The store as a node source. -/
def source (store : Store) : NodeSource where
  kindOf doc id := do
    let stored ← store.document? doc.id
    return (← stored.node? id).kind

/-- What is stored of a document, in document order, as its numbering reaches it. -/
def listing (store : Store) (doc : Document) : List StoredNode :=
  match store.document? doc.id with
  | some stored => (store.source.everything doc rootNode).filterMap stored.node?
  | none => []

end Store

/-- An index over a store, by the changes that happen around and during its scans. -/
structure Index where
  before : DocumentId → List Store.Change
  after : DocumentSet → List Store.Change

namespace Index

/-- Nobody changes the store during a scan. -/
def quiet : Index := ⟨fun _ => [], fun _ => []⟩

/-- Every document that was searched is touched after the scan. -/
def touching : Index := ⟨fun _ => [], fun docs => docs.ids.map .touch⟩

/-- Reads documents one after the other. -/
def read (index : Index) (request : ScanRequest) : List DocumentId → Store → List NodeRef × Store
  | [], store => ([], store)
  | doc :: docs, store =>
    let changed := store.applyAll (index.before doc)
    let (later, final) := index.read request docs changed
    (changed.hitsIn request doc ++ later, final)

/-- Scans documents by ascending identifier. Every scan is counted; one that is to fail
reads nothing. -/
def scan (index : Index) (request : ScanRequest) (docs : DocumentSet) (store : Store) :
    Except IndexError NodeSet × Store :=
  if store.failNext then
    (.error .injected, { store with scans := store.scans + 1, failNext := false })
  else
    let (found, final) := index.read request docs.ids { store with scans := store.scans + 1 }
    (.ok (.ofList found), final.applyAll (index.after docs))

end Index

end TreeAxes
