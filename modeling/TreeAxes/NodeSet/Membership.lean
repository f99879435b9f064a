import TreeAxes.NodeSet.Query

/-!
# What a node set holds

A node set is seen as a set of documents and identifiers. Sorting and recording contexts do
not change what it holds, an addition adds one node, a removal takes one away, and a lookup
in a set that is sorted by identifier finds exactly what it holds.
-/

namespace TreeAxes

namespace Partition

/-- Identifiers of the entries. -/
def ids (p : Partition) : List Nat := p.nodes.map (·.id)

theorem mem_map_id_collapseFrom (kept : NodeRef) (nodes : List NodeRef) (id : Nat) :
    id ∈ (collapseFrom kept nodes).map (·.id) ↔ id ∈ (kept :: nodes).map (·.id) := by
  induction nodes generalizing kept with
  | nil => simp [collapseFrom]
  | cons node nodes ih =>
    unfold collapseFrom
    split
    · next heq => simp [ih, heq]
    · simp [ih]

theorem mem_ids_removeDuplicates (p : Partition) (id : Nat) :
    id ∈ p.removeDuplicates.ids ↔ id ∈ p.ids := by
  rw [ids, ids, nodes_removeDuplicates]
  cases p.nodes with
  | nil => simp [collapse]
  | cons node nodes => exact mem_map_id_collapseFrom node nodes id

theorem mem_ids_sortById (p : Partition) (id : Nat) : id ∈ p.sortById.ids ↔ id ∈ p.ids :=
  (p.perm_sortById.map _).mem_iff

theorem mem_ids_mergeCopies (p : Partition) (id : Nat) : id ∈ p.mergeCopies.ids ↔ id ∈ p.ids := by
  rw [mergeCopies_eq, mem_ids_removeDuplicates, mem_ids_sortById]

theorem mem_ids_sortInDocumentOrder (p : Partition) (id : Nat) :
    id ∈ p.sortInDocumentOrder.ids ↔ id ∈ p.ids :=
  (p.perm_sortInDocumentOrder.map _).mem_iff

@[simp] theorem ids_setSelfAsContext (p : Partition) : p.setSelfAsContext.ids = p.ids := by
  simp [ids]

theorem mem_ids_add (p : Partition) (node : NodeRef) (id : Nat) :
    id ∈ (p.add node).ids ↔ id = node.id ∨ id ∈ p.ids := by
  simp only [ids, nodes_add]
  fun_induction append p.nodes node with
  | case1 => simp
  | case2 last node h => simp [h]
  | case3 => simp [or_comm]
  | case4 first second rest node ih => simp only [List.map_cons, List.mem_cons] at ih ⊢; grind

theorem mem_ids_erase {p : Partition} (h : p.nodes.Pairwise (·.id < ·.id)) (erased id : Nat) :
    id ∈ (p.erase erased).ids ↔ id ≠ erased ∧ id ∈ p.ids := by
  simp only [ids, nodes_erase h, List.mem_map, List.mem_filter]
  grind

theorem isSome_find?_iff {p : Partition} (h : p.nodes.Pairwise (·.id < ·.id)) (id : Nat) :
    (p.find? id).isSome ↔ id ∈ p.ids := by
  simp only [Option.isSome_iff_exists, find?_eq_some_iff h, ids, List.mem_map]

theorem find?_doc_eq_some_iff {parts : List Partition}
    (h : parts.Pairwise (·.doc.id.raw < ·.doc.id.raw)) {doc : DocumentId} {p : Partition} :
    parts.find? (·.doc.id = doc) = some p ↔ p ∈ parts ∧ p.doc.id = doc := by
  induction parts with
  | nil => simp
  | cons q qs ih =>
    obtain ⟨hq, hqs⟩ := List.pairwise_cons.1 h
    rw [List.find?_cons]
    split
    · next heq =>
      have heq := of_decide_eq_true heq
      simp only [Option.some.injEq, List.mem_cons]
      constructor
      · rintro rfl
        exact ⟨.inl rfl, heq⟩
      · rintro ⟨rfl | hp, hd⟩
        · rfl
        · have := hq p hp
          rw [heq, hd] at this
          exact absurd this (Nat.lt_irrefl _)
    · next hne =>
      have hne := of_decide_eq_false hne
      rw [ih hqs, List.mem_cons]
      constructor
      · rintro ⟨hp, hd⟩
        exact ⟨.inr hp, hd⟩
      · rintro ⟨rfl | hp, hd⟩
        · exact absurd hd hne
        · exact ⟨hp, hd⟩

/-- What is left of a sorted partition after a removal. -/
theorem mem_ids_erasedPart? {p : Partition} (h : p.nodes.Pairwise (·.id < ·.id))
    (doc : DocumentId) (erased id : Nat) :
    (∃ q, NodeSet.erasedPart? doc erased p = some q ∧ id ∈ q.ids) ↔
      ¬(p.doc.id = doc ∧ id = erased) ∧ id ∈ p.ids := by
  unfold NodeSet.erasedPart?
  split
  · next hd =>
    have he := mem_ids_erase h erased id
    split
    · next hnil =>
      have hno : id ∉ (p.erase erased).ids := by
        rw [ids, List.eq_nil_of_length_eq_zero ((p.erase erased).length_nodes.trans hnil)]
        simp
      simp only [reduceCtorEq, false_and, exists_false, hd, true_and, false_iff]
      exact fun hid => hno (he.2 hid)
    · simpa [hd] using he
  · next hd => simp [hd]

theorem mem_ids_insertNode {node : NodeRef} {parts : List Partition}
    {key : DocumentId × Nat} :
    (∃ p ∈ insertNode node parts, p.doc.id = key.1 ∧ key.2 ∈ p.ids) ↔
      key = node.key ∨ ∃ p ∈ parts, p.doc.id = key.1 ∧ key.2 ∈ p.ids := by
  obtain ⟨doc, id⟩ := key
  induction parts with
  | nil => simp [insertNode, ids, Partition.nodes, NodeRef.key, Prod.ext_iff, eq_comm]
  | cons p ps ih =>
    unfold insertNode
    split
    · simp [ids, Partition.nodes, NodeRef.key, Prod.ext_iff, eq_comm]
    · split
      · next heq =>
        simp only [List.mem_cons, exists_eq_or_imp, NodeRef.key, Prod.mk.injEq]
        rw [mem_ids_add, ← heq]
        simp only [add]
        grind
      · simp only [List.mem_cons, exists_eq_or_imp, ih]
        grind

end Partition

namespace NodeSet

instance : Membership (DocumentId × Nat) NodeSet :=
  ⟨fun s key => ∃ p ∈ s.parts, p.doc.id = key.1 ∧ key.2 ∈ p.ids⟩

theorem mem_def {s : NodeSet} {key : DocumentId × Nat} :
    key ∈ s ↔ ∃ p ∈ s.parts, p.doc.id = key.1 ∧ key.2 ∈ p.ids := Iff.rfl

/-- A set holds what its entries name. -/
theorem mem_iff_exists_node {s : NodeSet} {key : DocumentId × Nat} :
    key ∈ s ↔ ∃ node ∈ s.nodes, node.key = key := by
  simp only [mem_def, nodes, List.mem_flatMap, Partition.ids, List.mem_map]
  constructor
  · rintro ⟨p, hp, hd, node, hn, hid⟩
    exact ⟨node, ⟨p, hp, hn⟩, Prod.ext (((s.owned p hp).2 node hn).trans hd) hid⟩
  · rintro ⟨node, ⟨p, hp, hn⟩, rfl⟩
    exact ⟨p, hp, ((s.owned p hp).2 node hn).symm, node, hn, rfl⟩

@[simp] theorem not_mem_empty (key : DocumentId × Nat) : key ∉ empty := by
  simp [mem_def, empty]

@[simp] theorem mem_add {s : NodeSet} {node : NodeRef} {key : DocumentId × Nat} :
    key ∈ s.add node ↔ key = node.key ∨ key ∈ s := Partition.mem_ids_insertNode

@[simp] theorem mem_addAll {s : NodeSet} {nodes : List NodeRef} {key : DocumentId × Nat} :
    key ∈ s.addAll nodes ↔ (∃ node ∈ nodes, key = node.key) ∨ key ∈ s := by
  induction nodes generalizing s with
  | nil => simp [addAll]
  | cons node nodes ih =>
    have h : s.addAll (node :: nodes) = (s.add node).addAll nodes := rfl
    rw [h, ih, mem_add]
    grind

@[simp] theorem mem_ofList {nodes : List NodeRef} {key : DocumentId × Nat} :
    key ∈ ofList nodes ↔ ∃ node ∈ nodes, key = node.key := by
  simp [ofList]

theorem mem_mapParts {s : NodeSet} {order : SortOrder} {f : Partition → Partition}
    (hdoc : ∀ p, (f p).doc = p.doc) (howned : ∀ p ∈ s.parts, (f p).Owned)
    (hsorted : ∀ p ∈ s.parts, order.Holds (f p)) (hids : ∀ p id, id ∈ (f p).ids ↔ id ∈ p.ids)
    {key : DocumentId × Nat} : key ∈ s.mapParts order f hdoc howned hsorted ↔ key ∈ s := by
  simp only [mem_def, mapParts, List.mem_map]
  constructor
  · rintro ⟨q, ⟨p, hp, rfl⟩, hd, hid⟩
    exact ⟨p, hp, by rw [← hd, hdoc], (hids p key.2).1 hid⟩
  · rintro ⟨p, hp, hd, hid⟩
    exact ⟨f p, ⟨p, hp, rfl⟩, by rw [hdoc, hd], (hids p key.2).2 hid⟩

@[simp] theorem mem_sort {s : NodeSet} {key : DocumentId × Nat} : key ∈ s.sort ↔ key ∈ s := by
  unfold sort
  split
  · rfl
  · exact mem_mapParts _ _ _ fun p id => p.mem_ids_mergeCopies id

@[simp] theorem mem_sortInDocumentOrder {s : NodeSet} {key : DocumentId × Nat} :
    key ∈ s.sortInDocumentOrder ↔ key ∈ s := by
  unfold sortInDocumentOrder
  split
  · rfl
  · exact mem_mapParts _ _ _ fun p id => p.mem_ids_sortInDocumentOrder id
  · exact mem_mapParts _ _ _ fun p id => by
      rw [Partition.mem_ids_sortInDocumentOrder, Partition.mem_ids_mergeCopies]

@[simp] theorem mem_setSelfAsContext {s : NodeSet} {key : DocumentId × Nat} :
    key ∈ s.setSelfAsContext ↔ key ∈ s :=
  mem_mapParts _ _ _ fun p id => by rw [Partition.ids_setSelfAsContext]

theorem part?_eq_some_iff {s : NodeSet} {doc : DocumentId} {p : Partition} :
    s.part? doc = some p ↔ p ∈ s.parts ∧ p.doc.id = doc :=
  Partition.find?_doc_eq_some_iff s.ascending

theorem pairwise_nodes_of_byId {s : NodeSet} (h : s.order = .byId) :
    ∀ p ∈ s.parts, p.nodes.Pairwise (·.id < ·.id) := fun p hp => by
  have := s.sorted p hp
  rw [h] at this
  exact this

/-- A lookup in a set sorted by identifier finds what the set holds. -/
theorem isSome_lookup?_iff {s : NodeSet} (h : s.order = .byId) {doc : DocumentId} {id : Nat} :
    (s.lookup? doc id).isSome ↔ (doc, id) ∈ s := by
  simp only [lookup?, mem_def]
  cases hpart : s.part? doc with
  | none =>
    simp only [Option.bind_none, Option.isSome_none, Bool.false_eq_true, false_iff]
    rintro ⟨p, hp, hd, -⟩
    have := part?_eq_some_iff.2 ⟨hp, hd⟩
    simp [hpart] at this
  | some p =>
    obtain ⟨hp, hd⟩ := part?_eq_some_iff.1 hpart
    rw [Option.bind_some, Partition.isSome_find?_iff (pairwise_nodes_of_byId h p hp)]
    constructor
    · exact fun hid => ⟨p, hp, hd, hid⟩
    · rintro ⟨q, hq, hqd, hid⟩
      have := part?_eq_some_iff.2 ⟨hq, hqd⟩
      rw [hpart] at this
      cases this
      exact hid

theorem mem_erase {s : NodeSet} (h : s.order = .byId) {doc : DocumentId} {id : Nat}
    {key : DocumentId × Nat} : key ∈ s.erase doc id ↔ key ≠ (doc, id) ∧ key ∈ s := by
  have hsorted := pairwise_nodes_of_byId h
  have hpart := fun p hp => Partition.mem_ids_erasedPart? (hsorted p hp) doc id key.2
  rw [ne_eq, Prod.ext_iff]
  simp only [mem_def, erase, List.mem_filterMap]
  constructor
  · rintro ⟨q, ⟨p, hp, hq⟩, hd, hid⟩
    rw [(erasedPart?_eq_some hq).1] at hd
    obtain ⟨hne, hid⟩ := (hpart p hp).1 ⟨q, hq, hid⟩
    rw [hd] at hne
    exact ⟨hne, p, hp, hd, hid⟩
  · rintro ⟨hne, p, hp, hd, hid⟩
    rw [← hd] at hne
    obtain ⟨q, hq, hid⟩ := (hpart p hp).2 ⟨hne, hid⟩
    exact ⟨q, ⟨p, hp, hq⟩, by rw [(erasedPart?_eq_some hq).1, hd], hid⟩

theorem contains_fst {s : NodeSet} {doc : DocumentId} {id : Nat} :
    (s.contains doc id).1 ↔ (doc, id) ∈ s := by
  rw [contains, isSome_lookup?_iff s.sort_order, mem_sort]

theorem remove_fst {s : NodeSet} {node : NodeRef} : (s.remove node).1 ↔ node.key ∈ s := by
  have h : (s.sort.lookup? node.doc.id node.id).isSome ↔ node.key ∈ s := by
    rw [isSome_lookup?_iff s.sort_order, mem_sort]
    rfl
  unfold remove
  split
  · next hs => simpa using h.1 hs
  · next hs => simpa using mt h.2 hs

/-- A removal takes away one node at most. -/
theorem mem_remove {s : NodeSet} {node : NodeRef} {key : DocumentId × Nat} :
    key ∈ (s.remove node).2 ↔ key ≠ node.key ∧ key ∈ s := by
  unfold remove
  split
  · rw [mem_erase s.sort_order, mem_sort]
    rfl
  · next hs =>
    rw [isSome_lookup?_iff s.sort_order, mem_sort] at hs
    rw [mem_sort]
    refine ⟨fun h => ⟨?_, h⟩, And.right⟩
    rintro rfl
    exact hs h

end NodeSet

end TreeAxes
