import TreeAxes.Numbering.Order
import TreeAxes.Text.Quoted

/-!
# Documents

A document is what node references point into: an identifier, a URI and the numbering of
its nodes. Its content is kept elsewhere.
-/

namespace TreeAxes

/-- Identifier of a document, unique within one store. -/
structure DocumentId where
  raw : Nat
deriving DecidableEq, Hashable, Repr

namespace DocumentId

def text (id : DocumentId) : String := s!"doc#{id.raw}"

def describe (id : DocumentId) : String := s!"DocumentId({id.raw})"

theorem ext_iff {a b : DocumentId} : a = b ↔ a.raw = b.raw := by
  cases a; cases b; simp

end DocumentId

structure Document where
  id : DocumentId
  uri : String
  numbering : Numbering

namespace Document

def describe (doc : Document) : String :=
  s!"Document \x7b id: {doc.id.describe}, uri: {Text.quoted doc.uri} \x7d"

end Document

end TreeAxes
