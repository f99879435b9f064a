import TreeAxes.Document.Set
import TreeAxes.NodeSet.Copies
import TreeAxes.NodeSet.Cursor

/-!
# Node sets

A node set keeps one partition for each document, by ascending document identifier. Nodes
are added without sorting; a query that needs an order sorts first, by identifier or in
document order, and the set stays in that order until the next addition. Sorting merges the
copies of a node.

The fields of `NodeSet` carry what every operation keeps: no partition is empty, every node
is in its own document's partition, and the recorded order holds, without duplicates.
-/

namespace TreeAxes

inductive SortOrder where
  | unsorted
  | byId
  | documentOrder
deriving DecidableEq, Repr

/-- What an order says of a partition: its entries ascend strictly. -/
def SortOrder.Holds (order : SortOrder) (p : Partition) : Prop :=
  match order with
  | .unsorted => True
  | .byId => p.nodes.Pairwise (·.id < ·.id)
  | .documentOrder =>
    p.nodes.Pairwise fun a b => p.doc.numbering.compareDocumentOrder a.id b.id = .lt

/-- What every partition of a set keeps. -/
def Partition.Owned (p : Partition) : Prop :=
  p.nodes ≠ [] ∧ ∀ node ∈ p.nodes, node.doc.id = p.doc.id

/-- A set of nodes of any documents. The revision counts additions and removals. -/
structure NodeSet where
  parts : List Partition
  order : SortOrder
  revision : UInt32
  ascending : parts.Pairwise (·.doc.id.raw < ·.doc.id.raw)
  owned : ∀ p ∈ parts, p.Owned
  sorted : ∀ p ∈ parts, order.Holds p

namespace Partition

theorem Owned.add {p : Partition} {node : NodeRef} (h : p.Owned) (hn : node.doc.id = p.doc.id) :
    (p.add node).Owned := by
  rw [Owned, nodes_add]
  exact ⟨append_ne_nil _ _, forall_mem_append (P := fun n => n.doc.id = p.doc.id)
    (fun _ _ h => h) h.2 hn⟩

theorem Owned.mergeCopies {p : Partition} (h : p.Owned) : p.mergeCopies.Owned := by
  have hperm := p.perm_sortById
  rw [mergeCopies_eq, Owned, nodes_removeDuplicates]
  constructor
  · apply collapse_ne_nil
    intro h0
    rw [h0] at hperm
    exact h.1 hperm.symm.eq_nil
  · exact forall_mem_collapse (P := fun n => n.doc.id = p.doc.id) (fun _ _ h => h)
      (fun a ha => h.2 a (hperm.mem_iff.1 ha))

theorem Owned.sortInDocumentOrder {p : Partition} (h : p.Owned) :
    p.sortInDocumentOrder.Owned := by
  have hperm := p.perm_sortInDocumentOrder
  constructor
  · intro h0
    rw [h0] at hperm
    exact h.1 hperm.symm.eq_nil
  · exact fun a ha => h.2 a (hperm.mem_iff.1 ha)

theorem Owned.setSelfAsContext {p : Partition} (h : p.Owned) : p.setSelfAsContext.Owned := by
  rw [Owned, nodes_setSelfAsContext]
  constructor
  · simpa using h.1
  · intro a ha
    obtain ⟨b, hb, rfl⟩ := List.mem_map.1 ha
    simpa [Partition.setSelfAsContext] using h.2 b hb

theorem holds_byId (p : Partition) : SortOrder.byId.Holds p.mergeCopies := p.pairwise_mergeCopies

theorem holds_documentOrder {p : Partition} (h : SortOrder.byId.Holds p) :
    SortOrder.documentOrder.Holds p.sortInDocumentOrder :=
  p.pairwise_sortInDocumentOrder (h.imp Nat.ne_of_lt)

theorem holds_setSelfAsContext {p : Partition} {order : SortOrder} (h : order.Holds p) :
    order.Holds p.setSelfAsContext := by
  cases order with
  | unsorted => trivial
  | byId =>
    rw [SortOrder.Holds, nodes_setSelfAsContext]
    exact List.pairwise_map.2 (by simpa [SortOrder.Holds] using h)
  | documentOrder =>
    rw [SortOrder.Holds, nodes_setSelfAsContext]
    exact List.pairwise_map.2 (by simpa [SortOrder.Holds, setSelfAsContext] using h)

theorem holds_of_sublist {p q : Partition} {order : SortOrder} (hd : q.doc = p.doc)
    (hs : q.nodes.Sublist p.nodes) (h : order.Holds p) : order.Holds q := by
  cases order with
  | unsorted => trivial
  | byId => exact List.Pairwise.sublist hs h
  | documentOrder => exact List.Pairwise.sublist hs (by rw [hd]; exact h)

/-- Puts a node into its document's partition, or into a new one at its place. -/
def insertNode (node : NodeRef) : List Partition → List Partition
  | [] => [⟨node.doc, #[node]⟩]
  | p :: ps =>
    if node.doc.id.raw < p.doc.id.raw then ⟨node.doc, #[node]⟩ :: p :: ps
    else if p.doc.id = node.doc.id then p.add node :: ps
    else p :: insertNode node ps

theorem id_of_mem_insertNode {node : NodeRef} {parts : List Partition} {q : Partition}
    (h : q ∈ insertNode node parts) :
    q.doc.id = node.doc.id ∨ ∃ p ∈ parts, q.doc.id = p.doc.id := by
  induction parts with
  | nil => simp [insertNode] at h; simp [h]
  | cons p ps ih =>
    unfold insertNode at h
    split at h
    · rcases List.mem_cons.1 h with rfl | h
      · exact .inl rfl
      · exact .inr ⟨q, h, rfl⟩
    · split at h
      · rcases List.mem_cons.1 h with rfl | h
        · exact .inr ⟨p, by simp, rfl⟩
        · exact .inr ⟨q, by simp [h], rfl⟩
      · rcases List.mem_cons.1 h with rfl | h
        · exact .inr ⟨q, by simp, rfl⟩
        · rcases ih h with h | ⟨r, hr, h⟩
          · exact .inl h
          · exact .inr ⟨r, by simp [hr], h⟩

theorem pairwise_insertNode (node : NodeRef) {parts : List Partition}
    (h : parts.Pairwise (·.doc.id.raw < ·.doc.id.raw)) :
    (insertNode node parts).Pairwise (·.doc.id.raw < ·.doc.id.raw) := by
  induction parts with
  | nil => simp [insertNode]
  | cons p ps ih =>
    obtain ⟨hp, hps⟩ := List.pairwise_cons.1 h
    unfold insertNode
    split
    · next hlt =>
      refine List.pairwise_cons.2 ⟨?_, h⟩
      intro q hq
      rcases List.mem_cons.1 hq with rfl | hq
      · exact hlt
      · exact Nat.lt_trans hlt (hp q hq)
    · split
      · exact List.pairwise_cons.2 ⟨hp, hps⟩
      · next hlt hne =>
        refine List.pairwise_cons.2 ⟨?_, ih hps⟩
        intro q hq
        rcases id_of_mem_insertNode hq with hq | ⟨r, hr, hq⟩
        · rw [DocumentId.ext_iff] at hne
          rw [hq]
          omega
        · rw [hq]
          exact hp r hr

theorem owned_insertNode (node : NodeRef) {parts : List Partition}
    (h : ∀ p ∈ parts, p.Owned) : ∀ p ∈ insertNode node parts, p.Owned := by
  have hnew : (⟨node.doc, #[node]⟩ : Partition).Owned := ⟨by simp [nodes], by simp [nodes]⟩
  induction parts with
  | nil => simpa [insertNode] using hnew
  | cons p ps ih =>
    unfold insertNode
    split
    · intro q hq
      rcases List.mem_cons.1 hq with rfl | hq
      · exact hnew
      · exact h q hq
    · split
      · next heq =>
        intro q hq
        rcases List.mem_cons.1 hq with rfl | hq
        · exact (h p (by simp)).add heq.symm
        · exact h q (by simp [hq])
      · intro q hq
        rcases List.mem_cons.1 hq with rfl | hq
        · exact h q (by simp)
        · exact ih (fun r hr => h r (by simp [hr])) q hq

end Partition

namespace NodeSet

def empty : NodeSet where
  parts := []
  order := .unsorted
  revision := 0
  ascending := List.Pairwise.nil
  owned := by simp
  sorted := by simp

/-- Adds a node; its document becomes that of the partition if it is the first one. -/
def add (s : NodeSet) (node : NodeRef) : NodeSet where
  parts := Partition.insertNode node s.parts
  order := .unsorted
  revision := s.revision + 1
  ascending := Partition.pairwise_insertNode node s.ascending
  owned := Partition.owned_insertNode node s.owned
  sorted := fun _ _ => trivial

def addAll (s : NodeSet) (nodes : List NodeRef) : NodeSet := nodes.foldl add s

def ofList (nodes : List NodeRef) : NodeSet := empty.addAll nodes

/-- The same partitions, each changed in a way that keeps its document. -/
def mapParts (s : NodeSet) (order : SortOrder) (f : Partition → Partition)
    (hdoc : ∀ p, (f p).doc = p.doc) (howned : ∀ p ∈ s.parts, (f p).Owned)
    (hsorted : ∀ p ∈ s.parts, order.Holds (f p)) : NodeSet where
  parts := s.parts.map f
  order := order
  revision := s.revision
  ascending := List.pairwise_map.2 (by simpa only [hdoc] using s.ascending)
  owned := by
    intro q hq
    obtain ⟨p, hp, rfl⟩ := List.mem_map.1 hq
    exact howned p hp
  sorted := by
    intro q hq
    obtain ⟨p, hp, rfl⟩ := List.mem_map.1 hq
    exact hsorted p hp

/-- Sorts every partition by identifier and merges duplicates. -/
def sort (s : NodeSet) : NodeSet :=
  if s.order = .byId then s
  else
    s.mapParts .byId Partition.mergeCopies (fun _ => rfl)
      (fun p hp => (s.owned p hp).mergeCopies) (fun p _ => p.holds_byId)

theorem sort_order (s : NodeSet) : s.sort.order = .byId := by
  unfold sort
  split
  · assumption
  · rfl

/-- Puts every partition in document order, after merging duplicates. -/
def sortInDocumentOrder (s : NodeSet) : NodeSet :=
  match h : s.order with
  | .documentOrder => s
  | .byId =>
    s.mapParts .documentOrder Partition.sortInDocumentOrder (fun _ => rfl)
      (fun p hp => (s.owned p hp).sortInDocumentOrder)
      (fun p hp => Partition.holds_documentOrder (h ▸ s.sorted p hp))
  | .unsorted =>
    s.mapParts .documentOrder (fun p => p.mergeCopies.sortInDocumentOrder)
      (fun _ => rfl) (fun p hp => (s.owned p hp).mergeCopies.sortInDocumentOrder)
      (fun p _ => Partition.holds_documentOrder p.holds_byId)

/-- Entries in storage order. -/
def nodes (s : NodeSet) : List NodeRef := s.parts.flatMap (·.nodes)

/-- Number of entries, copies included while the set is unsorted. -/
def rawSize (s : NodeSet) : Nat := s.parts.foldr (fun p count => p.size + count) 0

def isEmpty (s : NodeSet) : Bool := s.parts.isEmpty

def isSorted (s : NodeSet) : Bool := s.order ≠ .unsorted

/-- The partition of a document. -/
def part? (s : NodeSet) (doc : DocumentId) : Option Partition :=
  s.parts.find? (·.doc.id = doc)

def containsDocument (s : NodeSet) (doc : DocumentId) : Bool := (s.part? doc).isSome

/-- Number of entries in the partition of a document. -/
def partSize? (s : NodeSet) (doc : DocumentId) : Option Nat :=
  (s.part? doc).map (·.size)

/-- The entry of a node, read from a set that is sorted by identifier. -/
def lookup? (s : NodeSet) (doc : DocumentId) (id : Nat) : Option NodeRef :=
  (s.part? doc).bind (·.find? id)

/-- The documents of the set. -/
def documents (s : NodeSet) : DocumentSet := DocumentSet.ofList (s.parts.map (·.doc))

/-- A cursor over the entries in storage order. -/
def cursor (s : NodeSet) : Cursor := Cursor.ofLists (s.parts.map (·.nodes))

/-- Makes every node its own context node. Neither order nor revision change. -/
def setSelfAsContext (s : NodeSet) : NodeSet :=
  s.mapParts s.order Partition.setSelfAsContext (fun _ => rfl)
    (fun p hp => (s.owned p hp).setSelfAsContext)
    (fun p hp => Partition.holds_setSelfAsContext (s.sorted p hp))

/-- The partition without the entry of an identifier, unless nothing is left of it. -/
def erasedPart? (doc : DocumentId) (id : Nat) (p : Partition) : Option Partition :=
  if p.doc.id = doc then
    if (p.erase id).size = 0 then none else some (p.erase id)
  else some p

theorem erasedPart?_eq_some {doc : DocumentId} {id : Nat} {p q : Partition}
    (h : erasedPart? doc id p = some q) :
    q.doc = p.doc ∧ q.nodes.Sublist p.nodes ∧ (p.nodes ≠ [] → q.nodes ≠ []) := by
  unfold erasedPart? at h
  split at h
  · split at h
    · cases h
    · next hne =>
      cases h
      refine ⟨p.erase_doc id, p.erase_sublist id, fun _ hnil => hne ?_⟩
      rw [← Partition.length_nodes, hnil]
      rfl
  · cases h
    exact ⟨rfl, List.Sublist.refl _, fun h => h⟩

/-- Removes the entry of a node from a set sorted by identifier. -/
def erase (s : NodeSet) (doc : DocumentId) (id : Nat) : NodeSet where
  parts := s.parts.filterMap (erasedPart? doc id)
  order := s.order
  revision := s.revision + 1
  ascending := s.ascending.filterMap _ fun p q h p' hp q' hq => by
    rw [(erasedPart?_eq_some hp).1, (erasedPart?_eq_some hq).1]
    exact h
  owned := by
    intro q hq
    obtain ⟨p, hp, hpq⟩ := List.mem_filterMap.1 hq
    obtain ⟨hd, hs, hne⟩ := erasedPart?_eq_some hpq
    exact ⟨hne (s.owned p hp).1, fun a ha => hd ▸ (s.owned p hp).2 a (hs.subset ha)⟩
  sorted := by
    intro q hq
    obtain ⟨p, hp, hpq⟩ := List.mem_filterMap.1 hq
    obtain ⟨hd, hs, -⟩ := erasedPart?_eq_some hpq
    exact Partition.holds_of_sublist hd hs (s.sorted p hp)

end NodeSet

end TreeAxes
