import Mathlib.Data.Finset.Card
import Mathlib.Data.Finset.Image
import TreeAxes.Proofs.DocumentSet
import TreeAxes.Proofs.NodeSet.Cursor
import TreeAxes.Proofs.NodeSet.Sorting

/-!
# Node sets are finite sets

Sorting is lazy, copies stay until the next sort, and a set is kept in one of two orders at
a time. None of this shows: after any operations a set answers like the finite set of the
nodes that were added and not removed since. A census keeps that finite set, and counts the
single additions and successful removals that the revision stands for.

`Tracks` is what every operation preserves, and it fixes every answer. The main statement is
`answers_run`.
-/

namespace TreeAxes

namespace NodeSet

/-- Public operations on a set. Many of them only ask, but asking may sort the set. -/
inductive Operation where
  | add (node : NodeRef)
  | addAll (nodes : List NodeRef)
  /-- Adds the entries of another set, copies included. -/
  | addSet (other : NodeSet)
  | remove (node : NodeRef)
  | sort
  | sortInDocumentOrder
  | setSelfAsContext
  | size
  | get (doc : DocumentId) (id : Nat)
  | contains (doc : DocumentId) (id : Nat)
  | getAt (position : Nat)
  | iterate
  | iterateInDocumentOrder
  | range (doc : DocumentId) (lower upper : Nat)
  | nearest (doc : DocumentId) (id : Nat) (directOnly includeSelf : Bool) (level : Option Nat)
  | childrenOf (node : NodeRef) (remember : Bool)
  | asParent (node : NodeRef) (remember : Bool)
  | select (context : NodeSet) (relation : Relation) (remember : Bool)
  /-- Anything that takes the set as it is: copying it, asking whether it is empty or for its
  documents, partitions or parents, or using it as the context of a join. -/
  | look

/-- The set that an operation leaves. -/
def perform (s : NodeSet) : Operation → NodeSet
  | .add node => s.add node
  | .addAll nodes => s.addAll nodes
  | .addSet other => s.addAll other.nodes
  | .remove node => (s.remove node).2
  | .sort => s.sort
  | .sortInDocumentOrder => s.sortInDocumentOrder
  | .setSelfAsContext => s.setSelfAsContext
  | .size => s.size.2
  | .get doc id => (s.get? doc id).2
  | .contains doc id => (s.contains doc id).2
  | .getAt position => (s.getAt? position).2
  | .iterate => s.iterate.2
  | .iterateInDocumentOrder => s.iterateInDocumentOrder.2
  | .range doc lower upper => (s.range doc lower upper).2
  | .nearest doc id directOnly includeSelf level =>
    (s.nearest? doc id directOnly includeSelf level).2
  | .childrenOf node remember => (s.childrenOf node remember).2
  | .asParent node remember => (s.asParent node remember).2
  | .select context relation remember => (s.select context relation remember).2
  | .look => s

/-- The set after a sequence of operations, beginning with an empty one. -/
def run (operations : List Operation) : NodeSet := operations.foldl perform empty

/-- Operations that only ask a set for something, or have it sorted. -/
def Operation.asks : Operation → Bool
  | .add _ | .addAll _ | .addSet _ | .remove _ | .setSelfAsContext => false
  | _ => true

/-- Asking leaves a set as it is, or sorted. -/
theorem perform_of_asks {motive : NodeSet → Prop} {s : NodeSet} {operation : Operation}
    (hasks : operation.asks) (h : motive s) (hsort : motive s.sort)
    (hdocument : motive s.sortInDocumentOrder) : motive (s.perform operation) := by
  cases operation with
  | add | addAll | addSet | remove | setSelfAsContext => cases hasks
  | size =>
    show motive s.size.2
    rw [size]
    split
    · exact h
    · exact hsort
  | sortInDocumentOrder | getAt | iterateInDocumentOrder => exact hdocument
  | sort | get | contains | iterate | range | nearest | childrenOf | asParent | select =>
    exact hsort
  | look => exact h

/-- What a set should hold, and how often it was changed. -/
structure Census where
  members : Finset (DocumentId × Nat)
  mutations : Nat

namespace Census

def empty : Census := ⟨∅, 0⟩

/-- The census after an operation. A removal counts if it removes something. -/
def update (c : Census) : Operation → Census
  | .add node => ⟨insert node.key c.members, c.mutations + 1⟩
  | .addAll nodes => ⟨(nodes.map (·.key)).toFinset ∪ c.members, c.mutations + nodes.length⟩
  | .addSet other =>
    ⟨(other.nodes.map (·.key)).toFinset ∪ c.members, c.mutations + other.nodes.length⟩
  | .remove node =>
    ⟨c.members.erase node.key, c.mutations + if node.key ∈ c.members then 1 else 0⟩
  | _ => c

def run (operations : List Operation) : Census := operations.foldl update empty

end Census

/-- A set holds what a census says, at the revision that it says. -/
structure Tracks (s : NodeSet) (c : Census) : Prop where
  mem_iff : ∀ key, key ∈ s ↔ key ∈ c.members
  revision_eq : s.revision = UInt32.ofNat c.mutations

/-! ## What operations preserve -/

@[simp] theorem sort_revision (s : NodeSet) : s.sort.revision = s.revision := by
  rw [sort]
  split <;> rfl

@[simp] theorem sort_sort (s : NodeSet) : s.sort.sort = s.sort := if_pos s.sort_order

@[simp] theorem sortInDocumentOrder_revision (s : NodeSet) :
    s.sortInDocumentOrder.revision = s.revision := by
  rw [sortInDocumentOrder]
  split <;> rfl

theorem sortInDocumentOrder_order (s : NodeSet) :
    s.sortInDocumentOrder.order = .documentOrder := by
  rw [sortInDocumentOrder]
  split
  · assumption
  · rfl
  · rfl

@[simp] theorem addAll_revision (s : NodeSet) (nodes : List NodeRef) :
    (s.addAll nodes).revision = s.revision + UInt32.ofNat nodes.length := by
  induction nodes generalizing s with
  | nil => exact (UInt32.add_zero _).symm
  | cons node nodes ih =>
    show ((s.add node).addAll nodes).revision = _
    rw [ih, List.length_cons, UInt32.ofNat_add, UInt32.add_comm (UInt32.ofNat _),
      ← UInt32.add_assoc]
    rfl

/-- Only a removal that finds the node counts as a change. -/
theorem remove_revision (s : NodeSet) (node : NodeRef) :
    (s.remove node).2.revision = s.revision + if (s.remove node).1 then 1 else 0 := by
  rw [remove]
  split
  · exact congrArg (· + 1) s.sort_revision
  · exact s.sort_revision.trans (UInt32.add_zero _).symm

namespace Tracks

variable {s : NodeSet} {c : Census}

theorem start : Tracks NodeSet.empty Census.empty :=
  ⟨fun key => by simp [Census.empty], rfl⟩

theorem sort (h : s.Tracks c) : s.sort.Tracks c :=
  ⟨fun key => mem_sort.trans (h.mem_iff key), s.sort_revision.trans h.revision_eq⟩

theorem sortInDocumentOrder (h : s.Tracks c) : s.sortInDocumentOrder.Tracks c :=
  ⟨fun key => mem_sortInDocumentOrder.trans (h.mem_iff key),
    s.sortInDocumentOrder_revision.trans h.revision_eq⟩

theorem addAll (h : s.Tracks c) (nodes : List NodeRef) :
    (s.addAll nodes).Tracks
      ⟨(nodes.map (·.key)).toFinset ∪ c.members, c.mutations + nodes.length⟩ := by
  refine ⟨fun key => ?_, ?_⟩
  · simp [h.mem_iff, eq_comm]
  · rw [addAll_revision, h.revision_eq, UInt32.ofNat_add]

theorem remove (h : s.Tracks c) (node : NodeRef) :
    (s.remove node).2.Tracks
      ⟨c.members.erase node.key, c.mutations + if node.key ∈ c.members then 1 else 0⟩ := by
  have hfound : (s.remove node).1 ↔ node.key ∈ c.members := remove_fst.trans (h.mem_iff _)
  refine ⟨fun key => ?_, ?_⟩
  · rw [mem_remove, Finset.mem_erase, h.mem_iff]
  · rw [remove_revision, h.revision_eq, UInt32.ofNat_add]
    by_cases hmem : node.key ∈ c.members
    · rw [if_pos hmem, if_pos (hfound.mpr hmem)]
      rfl
    · rw [if_neg hmem, if_neg (mt hfound.mp hmem)]
      rfl

/-- Each operation changes the set as it changes the census. -/
theorem perform (h : s.Tracks c) (operation : Operation) :
    (s.perform operation).Tracks (c.update operation) := by
  cases operation with
  | add node =>
    have hadd := h.addAll [node]
    rwa [List.map_singleton, List.toFinset_cons, List.toFinset_nil, insert_empty_eq,
      Finset.singleton_union] at hadd
  | addAll nodes => exact h.addAll nodes
  | addSet other => exact h.addAll other.nodes
  | remove node => exact h.remove node
  | setSelfAsContext =>
    exact ⟨fun key => mem_setSelfAsContext.trans (h.mem_iff key), h.revision_eq⟩
  | _ => exact perform_of_asks (motive := (·.Tracks c)) rfl h h.sort h.sortInDocumentOrder

theorem run (operations : List Operation) : (run operations).Tracks (Census.run operations) := by
  suffices ∀ (s : NodeSet) (c : Census), s.Tracks c →
      (operations.foldl NodeSet.perform s).Tracks (operations.foldl Census.update c) from
    this _ _ start
  induction operations with
  | nil => exact fun s c h => h
  | cons operation operations ih => exact fun s c h => ih _ _ (h.perform operation)

end Tracks

/-! ## What a set answers -/

/-- A list names each member once, in a strict order. -/
structure Enumerates (nodes : List NodeRef) (members : Finset (DocumentId × Nat))
    (before : NodeRef → NodeRef → Prop) : Prop where
  ordered : nodes.Pairwise before
  nodup : (nodes.map (·.key)).Nodup
  mem_iff : ∀ key, key ∈ nodes.map (·.key) ↔ key ∈ members

/-- Order by document, then by `within` among the nodes of one document. -/
def ByDocument (within : NodeRef → NodeRef → Prop) (a b : NodeRef) : Prop :=
  a.doc.id.raw < b.doc.id.raw ∨ a.doc.id = b.doc.id ∧ within a b

/-- Document order as the partition of the nodes decides it. -/
def PrecedesInPart (s : NodeSet) (a b : NodeRef) : Prop :=
  ∃ p, s.part? a.doc.id = some p ∧ p.doc.numbering.compareDocumentOrder a.id b.id = .lt

/-- A set answers like the finite set of its census. -/
structure Answers (s : NodeSet) (c : Census) : Prop where
  contains_iff : ∀ doc id, (s.contains doc id).1 ↔ (doc, id) ∈ c.members
  get?_key : ∀ doc id, (s.get? doc id).1.map (·.key) =
    if (doc, id) ∈ c.members then some (doc, id) else none
  size_eq : s.size.1 = c.members.card
  isEmpty_iff : s.isEmpty ↔ c.members = ∅
  containsDocument_iff : ∀ doc, s.containsDocument doc ↔ ∃ id, (doc, id) ∈ c.members
  mem_documents_iff : ∀ doc, doc ∈ s.documents.ids ↔ ∃ id, (doc, id) ∈ c.members
  documents_ascending : s.documents.ids.Pairwise (·.raw < ·.raw)
  iterate : Enumerates s.iterate.1.visits c.members (ByDocument (·.id < ·.id))
  iterateInDocumentOrder :
    Enumerates s.iterateInDocumentOrder.1.visits c.members (ByDocument s.PrecedesInPart)
  toDocumentOrder_eq : s.toDocumentOrder = s.iterateInDocumentOrder.1.visits
  getAt?_eq : ∀ position, (s.getAt? position).1 = s.iterateInDocumentOrder.1.visits[position]?
  mem_range_iff : ∀ doc lower upper key, key ∈ (s.range doc lower upper).1 ↔
    key ∈ c.members ∧ key.1 = doc ∧ lower ≤ key.2 ∧ key.2 ≤ upper
  remove_iff : ∀ node, (s.remove node).1 ↔ node.key ∈ c.members
  remove_all : ∀ node, ∀ left ∈ (s.remove node).2.nodes, left.key ≠ node.key
  one_order : ¬(s.order = .byId ∧ s.order = .documentOrder)
  revision_eq : s.revision = UInt32.ofNat c.mutations

/-- Entries of different documents stand in the order of their documents. -/
theorem pairwise_nodes {s : NodeSet} {within : NodeRef → NodeRef → Prop}
    (h : ∀ p ∈ s.parts, p.nodes.Pairwise within) : s.nodes.Pairwise (ByDocument within) := by
  refine List.pairwise_flatMap.mpr ⟨fun p hp => ?_, ?_⟩
  · refine (h p hp).imp_of_mem fun {a b} ha hb hab => .inr ⟨?_, hab⟩
    rw [(s.owned p hp).2 a ha, (s.owned p hp).2 b hb]
  · refine s.ascending.imp_of_mem fun {p q} hp hq hpq a ha b hb => .inl ?_
    rwa [(s.owned p hp).2 a ha, (s.owned q hq).2 b hb]

/-- Entries in a strict order are of different nodes. -/
theorem nodup_keys {nodes : List NodeRef} {within : NodeRef → NodeRef → Prop}
    (hwithin : ∀ a b, within a b → a.id ≠ b.id) (h : nodes.Pairwise (ByDocument within)) :
    (nodes.map (·.key)).Nodup := by
  refine List.pairwise_map.mpr (h.imp fun {a b} hab heq => ?_)
  obtain ⟨hdoc, hid⟩ := Prod.ext_iff.mp heq
  obtain hlt | ⟨-, hab⟩ := hab
  · exact Nat.ne_of_lt hlt (congrArg DocumentId.raw hdoc)
  · exact hwithin a b hab hid

theorem mem_map_key_nodes {s : NodeSet} {key : DocumentId × Nat} :
    key ∈ s.nodes.map (·.key) ↔ key ∈ s := by
  rw [mem_iff_exists_node, List.mem_map]

/-- The nodes of a document are those of its partition. -/
theorem mem_nodes_iff_part? {s : NodeSet} {node : NodeRef} {doc : DocumentId} :
    (node ∈ s.nodes ∧ node.doc.id = doc) ↔ ∃ p, s.part? doc = some p ∧ node ∈ p.nodes := by
  constructor
  · rintro ⟨hnode, hdoc⟩
    obtain ⟨p, hp, hnode⟩ := List.mem_flatMap.mp hnode
    exact ⟨p, part?_eq_some_iff.mpr ⟨hp, ((s.owned p hp).2 node hnode).symm.trans hdoc⟩, hnode⟩
  · rintro ⟨p, hpart, hnode⟩
    obtain ⟨hp, hdoc⟩ := part?_eq_some_iff.mp hpart
    exact ⟨List.mem_flatMap.mpr ⟨p, hp, hnode⟩, ((s.owned p hp).2 node hnode).trans hdoc⟩

theorem pairwise_nodes_of_order_byId {s : NodeSet} (h : s.order = .byId) :
    s.nodes.Pairwise (ByDocument (·.id < ·.id)) :=
  pairwise_nodes (pairwise_nodes_of_byId h)

theorem pairwise_nodes_of_documentOrder {s : NodeSet} (h : s.order = .documentOrder) :
    s.nodes.Pairwise (ByDocument s.PrecedesInPart) := by
  refine pairwise_nodes fun p hp => ?_
  have hsorted := s.sorted p hp
  rw [h] at hsorted
  refine hsorted.imp_of_mem fun {a b} ha _ hab => ⟨p, ?_, hab⟩
  exact part?_eq_some_iff.mpr ⟨hp, ((s.owned p hp).2 a ha).symm⟩

theorem ne_of_precedesInPart {s : NodeSet} {a b : NodeRef} (h : s.PrecedesInPart a b) :
    a.id ≠ b.id := by
  obtain ⟨p, -, hlt⟩ := h
  intro heq
  have hself : p.doc.numbering.compareDocumentOrder b.id b.id = .eq := Std.ReflCmp.compare_self
  rw [heq, hself] at hlt
  cases hlt

/-- In either order, a set has as many entries as nodes. -/
theorem rawSize_eq_card {s : NodeSet} {members : Finset (DocumentId × Nat)}
    (hnodup : (s.nodes.map (·.key)).Nodup) (hmem : ∀ key, key ∈ s ↔ key ∈ members) :
    s.rawSize = members.card := by
  have hmembers : (s.nodes.map (·.key)).toFinset = members := by
    ext key
    rw [List.mem_toFinset, mem_map_key_nodes, hmem]
  have hlength : s.nodes.length = s.rawSize := by
    rw [nodes, List.length_flatMap, List.sum, List.foldr_map]
    rfl
  rw [← hmembers, List.toFinset_card_of_nodup hnodup, List.length_map, hlength]

/-- Sorting leaves every partition its document. -/
theorem part?_doc_sortInDocumentOrder (s : NodeSet) (doc : DocumentId) :
    (s.sortInDocumentOrder.part? doc).map (·.doc) = (s.part? doc).map (·.doc) := by
  rw [part?, parts_sortInDocumentOrder, List.find?_map, Option.map_map]
  rfl

theorem precedesInPart_iff {s : NodeSet} {a b : NodeRef} :
    s.PrecedesInPart a b ↔ ∃ doc, (s.part? a.doc.id).map (·.doc) = some doc ∧
      doc.numbering.compareDocumentOrder a.id b.id = .lt := by
  simp only [PrecedesInPart, Option.map_eq_some_iff]
  constructor
  · rintro ⟨p, hp, hlt⟩
    exact ⟨p.doc, ⟨p, hp, rfl⟩, hlt⟩
  · rintro ⟨_, ⟨p, hp, rfl⟩, hlt⟩
    exact ⟨p, hp, hlt⟩

theorem precedesInPart_sortInDocumentOrder (s : NodeSet) :
    s.sortInDocumentOrder.PrecedesInPart = s.PrecedesInPart := by
  ext a b
  rw [precedesInPart_iff, precedesInPart_iff, part?_doc_sortInDocumentOrder]

namespace Tracks

variable {s : NodeSet} {c : Census}

theorem enumerates {within : NodeRef → NodeRef → Prop} (h : s.Tracks c)
    (hwithin : ∀ a b, within a b → a.id ≠ b.id)
    (hordered : s.nodes.Pairwise (ByDocument within)) :
    Enumerates s.nodes c.members (ByDocument within) :=
  ⟨hordered, nodup_keys hwithin hordered, fun key => mem_map_key_nodes.trans (h.mem_iff key)⟩

theorem enumerates_sort (h : s.Tracks c) :
    Enumerates s.sort.nodes c.members (ByDocument (·.id < ·.id)) :=
  h.sort.enumerates (fun _ _ => Nat.ne_of_lt) (pairwise_nodes_of_order_byId s.sort_order)

theorem enumerates_sortInDocumentOrder (h : s.Tracks c) :
    Enumerates s.sortInDocumentOrder.nodes c.members (ByDocument s.PrecedesInPart) := by
  have hordered := pairwise_nodes_of_documentOrder s.sortInDocumentOrder_order
  rw [precedesInPart_sortInDocumentOrder] at hordered
  exact h.sortInDocumentOrder.enumerates (fun _ _ => ne_of_precedesInPart) hordered

/-- An unsorted set is sorted before it is measured; a sorted one has no copies. -/
theorem size_fst (h : s.Tracks c) : s.size.1 = c.members.card := by
  rw [size]
  split
  · next hsorted =>
    have hordered : ∃ within, (∀ a b : NodeRef, within a b → a.id ≠ b.id) ∧
        s.nodes.Pairwise (ByDocument within) := by
      cases horder : s.order with
      | unsorted => simp [isSorted, horder] at hsorted
      | byId => exact ⟨_, fun _ _ => Nat.ne_of_lt, pairwise_nodes_of_order_byId horder⟩
      | documentOrder =>
        exact ⟨_, fun _ _ => ne_of_precedesInPart, pairwise_nodes_of_documentOrder horder⟩
    obtain ⟨within, hwithin, hordered⟩ := hordered
    exact rawSize_eq_card (nodup_keys hwithin hordered) h.mem_iff
  · exact rawSize_eq_card h.enumerates_sort.nodup h.sort.mem_iff

theorem isEmpty_iff (h : s.Tracks c) : s.isEmpty ↔ c.members = ∅ := by
  rw [isEmpty, List.isEmpty_iff, Finset.eq_empty_iff_forall_notMem]
  constructor
  · intro hnil key hkey
    obtain ⟨p, hp, -⟩ := (h.mem_iff key).mpr hkey
    rw [hnil] at hp
    cases hp
  · intro hnone
    refine List.eq_nil_iff_forall_not_mem.mpr fun p hp => ?_
    obtain ⟨node, hnode⟩ := List.exists_mem_of_ne_nil _ (s.owned p hp).1
    exact hnone (p.doc.id, node.id) ((h.mem_iff _).mp ⟨p, hp, rfl, List.mem_map_of_mem hnode⟩)

theorem mem_documents_iff (h : s.Tracks c) (doc : DocumentId) :
    doc ∈ s.documents.ids ↔ ∃ id, (doc, id) ∈ c.members :=
  mem_ids_documents.trans (exists_congr fun _ => h.mem_iff _)

theorem containsDocument_iff (h : s.Tracks c) (doc : DocumentId) :
    s.containsDocument doc ↔ ∃ id, (doc, id) ∈ c.members := by
  rw [← h.mem_documents_iff, DocumentSet.ids, documents_docs, containsDocument,
    Option.isSome_iff_exists]
  simp only [part?_eq_some_iff, List.map_map, List.mem_map, Function.comp_apply]

theorem mem_range_iff (h : s.Tracks c) (doc : DocumentId) (lower upper : Nat)
    (key : DocumentId × Nat) :
    key ∈ (s.range doc lower upper).1 ↔
      key ∈ c.members ∧ key.1 = doc ∧ lower ≤ key.2 ∧ key.2 ≤ upper := by
  rw [← h.sort.mem_iff, range, mem_ofList, mem_iff_exists_node]
  split
  · next p hpart =>
    obtain ⟨hp, rfl⟩ := part?_eq_some_iff.mp hpart
    have hsorted := pairwise_nodes_of_byId s.sort_order p hp
    simp only [Partition.range_eq (hsorted.imp Nat.le_of_lt), List.mem_filter, decide_eq_true_eq]
    constructor
    · rintro ⟨node, ⟨hnode, hbounds⟩, rfl⟩
      exact ⟨⟨node, List.mem_flatMap.mpr ⟨p, hp, hnode⟩, rfl⟩, (s.sort.owned p hp).2 node hnode,
        hbounds⟩
    · rintro ⟨⟨node, hnode, rfl⟩, hdoc, hbounds⟩
      obtain ⟨q, hq, hnode⟩ := List.mem_flatMap.mp hnode
      have hqdoc : q.doc.id = p.doc.id := ((s.sort.owned q hq).2 node hnode).symm.trans hdoc
      rw [part?_eq_some_iff.mpr ⟨hq, hqdoc⟩, Option.some_inj] at hpart
      subst hpart
      exact ⟨node, ⟨hnode, hbounds⟩, rfl⟩
  · next hpart =>
    constructor
    · rintro ⟨node, hnode, -⟩
      cases hnode
    · rintro ⟨⟨node, hnode, rfl⟩, hdoc, -⟩
      obtain ⟨q, hq, hnode⟩ := List.mem_flatMap.mp hnode
      have hqdoc := ((s.sort.owned q hq).2 node hnode).symm.trans hdoc
      rw [part?_eq_some_iff.mpr ⟨hq, hqdoc⟩] at hpart
      cases hpart

theorem get?_key (h : s.Tracks c) (doc : DocumentId) (id : Nat) :
    (s.get? doc id).1.map (·.key) = if (doc, id) ∈ c.members then some (doc, id) else none := by
  have hsome : (s.sort.lookup? doc id).isSome ↔ (doc, id) ∈ s.sort :=
    isSome_lookup?_iff s.sort_order
  rw [h.sort.mem_iff] at hsome
  show (s.sort.lookup? doc id).map _ = _
  cases hfound : s.sort.lookup? doc id with
  | none =>
    rw [hfound] at hsome
    rw [if_neg fun hmem => Bool.false_ne_true (hsome.mpr hmem)]
    rfl
  | some node =>
    rw [hfound] at hsome
    rw [if_pos (hsome.mp rfl)]
    obtain ⟨p, hpart, hfind⟩ := Option.bind_eq_some_iff.mp hfound
    obtain ⟨hp, rfl⟩ := part?_eq_some_iff.mp hpart
    obtain ⟨hnode, rfl⟩ :=
      (Partition.find?_eq_some_iff (pairwise_nodes_of_byId s.sort_order p hp)).mp hfind
    exact congrArg some (Prod.ext ((s.sort.owned p hp).2 node hnode) rfl)

/-- What a set holds and its revision fix all that it answers. -/
theorem answers (h : s.Tracks c) : s.Answers c where
  contains_iff doc id := contains_fst.trans (h.mem_iff _)
  get?_key := h.get?_key
  size_eq := h.size_fst
  isEmpty_iff := h.isEmpty_iff
  containsDocument_iff := h.containsDocument_iff
  mem_documents_iff := h.mem_documents_iff
  documents_ascending := s.documents.pairwise_ids
  iterate := by
    rw [NodeSet.iterate, visits_cursor]
    exact h.enumerates_sort
  iterateInDocumentOrder := by
    rw [NodeSet.iterateInDocumentOrder, visits_cursor]
    exact h.enumerates_sortInDocumentOrder
  toDocumentOrder_eq := (visits_cursor _).symm
  getAt?_eq position := by
    rw [NodeSet.iterateInDocumentOrder, visits_cursor]
    rfl
  mem_range_iff := h.mem_range_iff
  remove_iff node := remove_fst.trans (h.mem_iff _)
  remove_all node left hleft heq := by
    have hmem : left.key ∈ (s.remove node).2 := mem_iff_exists_node.mpr ⟨left, hleft, rfl⟩
    exact (mem_remove.mp hmem).1 heq
  one_order horders := by
    rw [horders.1] at horders
    cases horders.2
  revision_eq := h.revision_eq

end Tracks

/-- After any operations, a set answers like the finite set of the nodes that were added and
not removed since. -/
theorem answers_run (operations : List Operation) :
    (run operations).Answers (Census.run operations) :=
  (Tracks.run operations).answers

end NodeSet

end TreeAxes
