import TreeAxes.Store.Feed
import TreeAxes.Store.Layout

/-!
# The document store

A store holds documents by ascending identifier and announces every change to them after it
was made. An addition uses an identifier up even if it fails, so none is given twice. The
count of additions has no bound here; where it is kept in a word of 32 bits, this holds of
stores with fewer than `2 ^ 32` additions. A change that fails or finds nothing to change
leaves the documents alone and is not announced.
-/

namespace TreeAxes

structure Store where
  documents : List StoredDocument
  /-- Number of additions tried so far; it is the last identifier that was used. -/
  additions : Nat
  feed : Feed
  /-- Number of index scans served so far. -/
  scans : Nat
  /-- The next index scan is to fail. -/
  failNext : Bool

namespace Store

def empty : Store := ⟨[], 0, .empty, 0, false⟩

def document? (store : Store) (id : DocumentId) : Option StoredDocument :=
  store.documents.find? (·.doc.id = id)

def contains (store : Store) (id : DocumentId) : Bool := (store.document? id).isSome

/-- The stored documents as a set. -/
def documentSet (store : Store) : DocumentSet := .ofList (store.documents.map (·.doc))

def announce (store : Store) (id : DocumentId) (kind : ChangeKind) : Store :=
  { store with feed := store.feed.announce ⟨id, kind⟩ }

/-- Stores a tree as a new document. -/
def add (store : Store) (uri : String) (tree : Tree) : Except NumberingError Document × Store :=
  let id : DocumentId := ⟨store.additions + 1⟩
  match StoredDocument.ofTree id uri tree with
  | .error fault => (.error fault, { store with additions := store.additions + 1 })
  | .ok stored =>
    let extended : Store :=
      { store with
        additions := store.additions + 1
        documents := store.documents ++ [stored] }
    (.ok stored.doc, extended.announce id .added)

/-- Puts new content in the place of a document. A tree that cannot be numbered is noticed
before a document that is not there. -/
def replace (store : Store) (id : DocumentId) (uri : String) (tree : Tree) :
    Except NumberingError (Option Document) × Store :=
  match StoredDocument.ofTree id uri tree with
  | .error fault => (.error fault, store)
  | .ok stored =>
    if store.contains id then
      let replaced : Store :=
        { store with
          documents := store.documents.map fun d => if d.doc.id = id then stored else d }
      (.ok (some stored.doc), replaced.announce id .other)
    else (.ok none, store)

/-- Announces a change of a document without making one. -/
def touch (store : Store) (id : DocumentId) : Bool × Store :=
  if store.contains id then (true, store.announce id .other) else (false, store)

def remove (store : Store) (id : DocumentId) : Bool × Store :=
  if store.contains id then
    let reduced : Store :=
      { store with documents := store.documents.filter (·.doc.id ≠ id) }
    (true, reduced.announce id .other)
  else (false, store)

def failNextScan (store : Store) : Store := { store with failNext := true }

/-- A reference to a stored node. -/
def node? (store : Store) (doc : DocumentId) (id : Nat) : Option NodeRef := do
  let stored ← store.document? doc
  return stored.ref (← stored.node? id)

/-- Nodes of a document with a local name, in document order. -/
def named (store : Store) (doc : DocumentId) (name : String) : List NodeRef :=
  match store.document? doc with
  | some stored => (stored.named (.ofLocal name)).map stored.ref
  | none => []

/-- Name of a stored node. -/
def nameOf? (store : Store) (doc : DocumentId) (id : Nat) : Option QName := do
  let stored ← store.document? doc
  (← stored.node? id).name

/-- Attribute value or character data of a stored node. -/
def valueOf? (store : Store) (doc : DocumentId) (id : Nat) : Option String := do
  let stored ← store.document? doc
  (← stored.node? id).value

end Store

end TreeAxes
