import TreeAxes.Document.Basic

/-!
# Sets of documents

A set holds at most one document of an identifier, the one that was inserted first, and
lists its documents by ascending identifier. Two sets are the same when they hold the same
identifiers, whatever the documents behind them.
-/

namespace TreeAxes

/-- Puts a document into an ascending list, unless its identifier is taken. -/
def insertAscending (doc : Document) : List Document → List Document
  | [] => [doc]
  | d :: ds =>
    if doc.id.raw < d.id.raw then doc :: d :: ds
    else if doc.id = d.id then d :: ds
    else d :: insertAscending doc ds

theorem mem_insertAscending {doc d : Document} {docs : List Document}
    (h : d ∈ insertAscending doc docs) : d = doc ∨ d ∈ docs := by
  induction docs with
  | nil => simpa [insertAscending] using h
  | cons e es ih =>
    unfold insertAscending at h
    split at h
    · simpa using h
    · split at h
      · exact .inr h
      · rcases List.mem_cons.1 h with rfl | h
        · simp
        · rcases ih h with rfl | h <;> simp [*]

theorem pairwise_insertAscending (doc : Document) {docs : List Document}
    (h : docs.Pairwise (·.id.raw < ·.id.raw)) :
    (insertAscending doc docs).Pairwise (·.id.raw < ·.id.raw) := by
  induction docs with
  | nil => simp [insertAscending]
  | cons e es ih =>
    obtain ⟨he, hes⟩ := List.pairwise_cons.1 h
    unfold insertAscending
    split
    · next hlt =>
      refine List.pairwise_cons.2 ⟨?_, h⟩
      intro d hd
      rcases List.mem_cons.1 hd with rfl | hd
      · exact hlt
      · have := he d hd
        omega
    · next hlt =>
      split
      · exact h
      · next hne =>
        refine List.pairwise_cons.2 ⟨?_, ih hes⟩
        intro d hd
        rcases mem_insertAscending hd with rfl | hd
        · rw [DocumentId.ext_iff] at hne
          omega
        · exact he d hd

/-- Documents of different identifiers, in ascending order. -/
structure DocumentSet where
  docs : List Document
  ascending : docs.Pairwise (·.id.raw < ·.id.raw)

namespace DocumentSet

def empty : DocumentSet := ⟨[], List.Pairwise.nil⟩

/-- Adds a document, unless the set has one of the same identifier. -/
def insert (s : DocumentSet) (doc : Document) : DocumentSet :=
  ⟨insertAscending doc s.docs, pairwise_insertAscending doc s.ascending⟩

def insertAll (s : DocumentSet) (docs : List Document) : DocumentSet := docs.foldl insert s

def ofList (docs : List Document) : DocumentSet := empty.insertAll docs

def get? (s : DocumentSet) (id : DocumentId) : Option Document := s.docs.find? (·.id = id)

def contains (s : DocumentSet) (id : DocumentId) : Bool := s.docs.any (·.id = id)

def ids (s : DocumentSet) : List DocumentId := s.docs.map (·.id)

def size (s : DocumentSet) : Nat := s.docs.length

def isEmpty (s : DocumentSet) : Bool := s.docs.isEmpty

/-- Whether two sets hold the same identifiers. -/
def sameIds (s t : DocumentSet) : Bool := s.ids = t.ids

/-- Whether two sets share an identifier. -/
def intersects (s t : DocumentSet) : Bool := s.ids.any t.contains

def union (s t : DocumentSet) : DocumentSet := s.insertAll t.docs

def describe (s : DocumentSet) : String :=
  "\x7b" ++ ", ".intercalate (s.ids.map DocumentId.describe) ++ "\x7d"

end DocumentSet

end TreeAxes
