import TreeAxes.Proofs.NodeSet.Joins
import TreeAxes.Proofs.Store.Walks

/-!
# Sets of stored nodes

A set is stored in a store if its references are to nodes of the store, of the kinds and of the
documents that the store has. Every operation keeps this, and the partitions of such a set are
ready for lookups once they are sorted.
-/

namespace TreeAxes

/-- A reference to a stored node, of its kind and of its present document. -/
def NodeRef.StoredIn (store : Store) (node : NodeRef) : Prop :=
  ∃ d ∈ store.documents, node.doc = d.doc ∧ d.Holds ⟨node.id, node.kind⟩

theorem NodeRef.StoredIn.pushContext {store : Store} {node : NodeRef} (h : node.StoredIn store)
    (c : ContextNode) : (node.pushContext c).StoredIn store := by
  rw [StoredIn] at h ⊢
  simpa using h

/-- Stored references to one node agree on its document and its kind. -/
theorem NodeRef.StoredIn.agree {store : Store} {a b : NodeRef} (ha : a.StoredIn store)
    (hb : b.StoredIn store) (hstore : store.Sound) (hkey : a.key = b.key) :
    a.doc = b.doc ∧ a.id = b.id ∧ a.kind = b.kind := by
  obtain ⟨d, hd, hdoc, hholds⟩ := ha
  obtain ⟨e, he, hdoc', hholds'⟩ := hb
  obtain ⟨hid, hnid⟩ := Prod.ext_iff.mp hkey
  obtain rfl : d = e := hstore.eq_of_id hd he (by rw [← hdoc, ← hdoc']; exact hid)
  exact ⟨hdoc.trans hdoc'.symm, hnid, hholds.kind_eq (hstore.identifies hd) hholds' hnid⟩

/-- A partition of a stored document, with references to its nodes. -/
def Partition.StoredIn (store : Store) (p : Partition) : Prop :=
  ∃ d ∈ store.documents, p.doc = d.doc ∧
    ∀ node ∈ p.nodes, node.doc = d.doc ∧ d.Holds ⟨node.id, node.kind⟩

/-- Whether all of a set is in a store as it is now. -/
def NodeSet.StoredIn (store : Store) (s : NodeSet) : Prop := ∀ p ∈ s.parts, p.StoredIn store

/-- The numbering of a root without anything below it. -/
def Numbering.rootOnly : Numbering := ⟨[], #[Level.root], rfl, rfl⟩

/-- The numberings of the stored documents. -/
def Store.numbering (store : Store) (doc : DocumentId) : Numbering :=
  match store.document? doc with
  | some d => d.doc.numbering
  | none => .rootOnly

theorem Store.Sound.numbering_eq {store : Store} {d : StoredDocument} (h : store.Sound)
    (hd : d ∈ store.documents) : store.numbering d.doc.id = d.doc.numbering := by
  rw [Store.numbering, h.document?_eq_some_iff.mpr ⟨hd, rfl⟩]

namespace Partition.StoredIn

variable {store : Store} {p q : Partition} {node : NodeRef}

/-- A partition with the same document and no other nodes is stored, too. -/
theorem mono (h : p.StoredIn store) (hdoc : q.doc = p.doc)
    (hnodes : ∀ d : StoredDocument,
      (∀ node ∈ p.nodes, node.doc = d.doc ∧ d.Holds ⟨node.id, node.kind⟩) →
        ∀ node ∈ q.nodes, node.doc = d.doc ∧ d.Holds ⟨node.id, node.kind⟩) :
    q.StoredIn store := by
  obtain ⟨d, hd, hpdoc, hp⟩ := h
  exact ⟨d, hd, hdoc.trans hpdoc, hnodes d hp⟩

theorem mergeCopies (h : p.StoredIn store) : p.mergeCopies.StoredIn store := by
  refine h.mono rfl fun d hp => ?_
  rw [mergeCopies_eq, nodes_removeDuplicates]
  exact forall_mem_collapse
    (P := fun node => node.doc = d.doc ∧ d.Holds ⟨node.id, node.kind⟩) (fun _ _ h => h)
    fun node hnode => hp node (p.perm_sortById.mem_iff.mp hnode)

theorem sortInDocumentOrder (h : p.StoredIn store) : p.sortInDocumentOrder.StoredIn store :=
  h.mono rfl fun _ hp node hnode => hp node (p.perm_sortInDocumentOrder.mem_iff.mp hnode)

theorem setSelfAsContext (h : p.StoredIn store) : p.setSelfAsContext.StoredIn store := by
  refine h.mono rfl fun d hp => ?_
  intro node hnode
  rw [nodes_setSelfAsContext] at hnode
  obtain ⟨other, hother, rfl⟩ := List.mem_map.mp hnode
  simpa using hp other hother

theorem add (h : p.StoredIn store) (hstore : store.Sound) (hnode : node.StoredIn store)
    (hid : p.doc.id = node.doc.id) : (p.add node).StoredIn store := by
  obtain ⟨e, he, hdoc, hholds⟩ := hnode
  obtain ⟨d, hd, hpdoc, hp⟩ := h
  have heq : d = e := hstore.eq_of_id hd he (by rw [← hpdoc, ← hdoc, hid])
  subst heq
  refine ⟨d, hd, hpdoc, ?_⟩
  rw [nodes_add]
  exact forall_mem_append
    (P := fun node => node.doc = d.doc ∧ d.Holds ⟨node.id, node.kind⟩) (fun _ _ h => h) hp
    ⟨hdoc, hholds⟩

end Partition.StoredIn

namespace NodeSet

variable {store : Store} {s t : NodeSet} {p : Partition} {node : NodeRef} {d : StoredDocument}

theorem storedIn_empty (store : Store) : empty.StoredIn store := nofun

theorem StoredIn.of_mem_nodes (h : s.StoredIn store) (hnode : node ∈ s.nodes) :
    node.StoredIn store := by
  obtain ⟨p, hp, hnode⟩ := List.mem_flatMap.mp hnode
  obtain ⟨d, hd, -, hnodes⟩ := h p hp
  exact ⟨d, hd, hnodes node hnode⟩

theorem StoredIn.of_parts (h : s.StoredIn store) {f : Partition → Partition}
    (hparts : t.parts = s.parts.map f)
    (hf : ∀ p : Partition, p.StoredIn store → (f p).StoredIn store) : t.StoredIn store := by
  intro q hq
  rw [hparts] at hq
  obtain ⟨p, hp, rfl⟩ := List.mem_map.mp hq
  exact hf p (h p hp)

theorem StoredIn.sort (h : s.StoredIn store) : s.sort.StoredIn store :=
  h.of_parts s.parts_sort fun _ => Partition.StoredIn.mergeCopies

theorem StoredIn.sortInDocumentOrder (h : s.StoredIn store) :
    s.sortInDocumentOrder.StoredIn store :=
  h.of_parts s.parts_sortInDocumentOrder fun _ hp => hp.mergeCopies.sortInDocumentOrder

theorem StoredIn.setSelfAsContext (h : s.StoredIn store) : s.setSelfAsContext.StoredIn store :=
  h.of_parts rfl fun _ => Partition.StoredIn.setSelfAsContext

theorem StoredIn.erase (h : s.StoredIn store) (doc : DocumentId) (id : Nat) :
    (s.erase doc id).StoredIn store := by
  intro q hq
  obtain ⟨p, hp, hpq⟩ := List.mem_filterMap.mp hq
  obtain ⟨hdoc, hsub, -⟩ := erasedPart?_eq_some hpq
  exact (h p hp).mono hdoc fun _ hnodes node hnode => hnodes node (hsub.subset hnode)

theorem StoredIn.remove (h : s.StoredIn store) (node : NodeRef) :
    (s.remove node).2.StoredIn store := by
  rw [NodeSet.remove]
  split
  · exact h.sort.erase _ _
  · exact h.sort

theorem StoredIn.add (h : s.StoredIn store) (hstore : store.Sound)
    (hnode : node.StoredIn store) : (s.add node).StoredIn store := by
  have hnew : (⟨node.doc, #[node]⟩ : Partition).StoredIn store := by
    obtain ⟨d, hd, hdoc, hholds⟩ := hnode
    refine ⟨d, hd, hdoc, fun other hother => ?_⟩
    rw [List.mem_singleton.mp hother]
    exact ⟨hdoc, hholds⟩
  show ∀ q ∈ Partition.insertNode node s.parts, q.StoredIn store
  have hparts : ∀ p ∈ s.parts, p.StoredIn store := h
  generalize s.parts = parts at hparts
  induction parts with
  | nil =>
    intro q hq
    rw [List.mem_singleton.mp hq]
    exact hnew
  | cons p parts ih =>
    obtain ⟨hp, hparts⟩ := List.forall_mem_cons.mp hparts
    rw [Partition.insertNode]
    split
    · exact List.forall_mem_cons.mpr ⟨hnew, List.forall_mem_cons.mpr ⟨hp, hparts⟩⟩
    · split
      · next hid => exact List.forall_mem_cons.mpr ⟨hp.add hstore hnode hid, hparts⟩
      · exact List.forall_mem_cons.mpr ⟨hp, ih hparts⟩

theorem StoredIn.addAll (h : s.StoredIn store) (hstore : store.Sound) {nodes : List NodeRef}
    (hnodes : ∀ node ∈ nodes, node.StoredIn store) : (s.addAll nodes).StoredIn store := by
  induction nodes generalizing s with
  | nil => exact h
  | cons node nodes ih =>
    obtain ⟨hnode, hnodes⟩ := List.forall_mem_cons.mp hnodes
    exact ih (h.add hstore hnode) hnodes

theorem storedIn_ofList (hstore : store.Sound) {nodes : List NodeRef}
    (hnodes : ∀ node ∈ nodes, node.StoredIn store) : (ofList nodes).StoredIn store :=
  (storedIn_empty store).addAll hstore hnodes

/-- The nodes that an operation adds. -/
def Operation.added : Operation → List NodeRef
  | .add node => [node]
  | .addAll nodes => nodes
  | .addSet other => other.nodes
  | _ => []

theorem StoredIn.perform (h : s.StoredIn store) (hstore : store.Sound) {operation : Operation}
    (hadded : ∀ node ∈ operation.added, node.StoredIn store) :
    (s.perform operation).StoredIn store := by
  cases operation with
  | add node => exact h.add hstore (hadded node List.mem_cons_self)
  | addAll nodes => exact h.addAll hstore hadded
  | addSet other => exact h.addAll hstore hadded
  | remove node => exact h.remove node
  | setSelfAsContext => exact h.setSelfAsContext
  | _ => exact perform_of_asks (motive := (·.StoredIn store)) rfl h h.sort h.sortInDocumentOrder

/-- A set to which only stored nodes were ever added is stored, whatever else was done to it. -/
theorem storedIn_run (hstore : store.Sound) {operations : List Operation}
    (hadded : ∀ operation ∈ operations, ∀ node ∈ operation.added, node.StoredIn store) :
    (run operations).StoredIn store := by
  suffices ∀ s : NodeSet, s.StoredIn store → (operations.foldl perform s).StoredIn store from
    this empty (storedIn_empty store)
  induction operations with
  | nil => exact fun s h => h
  | cons operation operations ih =>
    obtain ⟨hfirst, hadded⟩ := List.forall_mem_cons.mp hadded
    exact fun s h => ih hadded _ (h.perform hstore hfirst)

/-! ## Lookups -/

theorem StoredIn.numbering_eq (h : s.StoredIn store) (hstore : store.Sound)
    (hnode : node ∈ s.nodes) : node.doc.numbering = store.numbering node.doc.id := by
  obtain ⟨d, hd, hdoc, -⟩ := h.of_mem_nodes hnode
  rw [hdoc, hstore.numbering_eq hd]

theorem StoredIn.numberedBy (h : s.StoredIn store) (hstore : store.Sound) :
    s.NumberedBy store.numbering := by
  intro doc
  constructor
  · rintro p hp rfl
    obtain ⟨d, hd, hdoc, -⟩ := h p hp
    rw [hdoc, hstore.numbering_eq hd]
  · rintro node hnode rfl
    obtain ⟨d, hd, hdoc, hholds⟩ := h.of_mem_nodes hnode
    rw [hdoc, hstore.numbering_eq hd]
    exact Numbering.numbers_iff_uses.mpr (hholds.uses (hstore.identifies hd))

/-- A sorted partition of stored nodes is ready for lookups. -/
theorem StoredIn.ready (h : s.StoredIn store) (hstore : store.Sound) (hsorted : s.order = .byId)
    (hp : p ∈ s.parts) : p.Ready := (h.numberedBy hstore p.doc.id).ready hsorted hp rfl

/-- The partition of a stored document has that document, and the nodes of the set in it. -/
theorem StoredIn.part?_doc (h : s.StoredIn store) (hstore : store.Sound)
    (hd : d ∈ store.documents) (hp : s.part? d.doc.id = some p) : p.doc = d.doc := by
  obtain ⟨hp, hid⟩ := part?_eq_some_iff.mp hp
  obtain ⟨e, he, hdoc, -⟩ := h p hp
  rw [hdoc, hstore.eq_of_id he hd (by rw [← hdoc, hid])]

/-- Two stored sets that hold the same nodes have references of the same documents and kinds. -/
theorem StoredIn.exists_same (hs : s.StoredIn store) (ht : t.StoredIn store)
    (hstore : store.Sound) (hsame : ∀ key, key ∈ s ↔ key ∈ t) (hnode : node ∈ s.nodes) :
    ∃ other ∈ t.nodes, other.doc = node.doc ∧ other.id = node.id ∧ other.kind = node.kind := by
  obtain ⟨other, hother, hkey⟩ :=
    mem_iff_exists_node.mp ((hsame node.key).mp (mem_iff_exists_node.mpr ⟨node, hnode, rfl⟩))
  exact ⟨other, hother, (ht.of_mem_nodes hother).agree (hs.of_mem_nodes hnode) hstore hkey⟩

end NodeSet

end TreeAxes
