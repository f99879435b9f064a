import TreeAxes.NodeSet.Membership

/-!
# What a set of documents holds

A set of documents is seen as its identifiers. An insertion adds one of them and keeps the
documents that are there, so documents that ascend already stay as they are.
-/

namespace TreeAxes

namespace DocumentSet

variable {s t : DocumentSet} {doc : Document} {docs : List Document} {id : DocumentId}

theorem mem_ids_insertAscending :
    id ∈ (insertAscending doc docs).map (·.id) ↔ id = doc.id ∨ id ∈ docs.map (·.id) := by
  induction docs with
  | nil => rw [insertAscending, List.map_singleton, List.mem_singleton, List.map_nil]; simp
  | cons d ds ih =>
    rw [insertAscending]
    split
    · rw [List.map_cons, List.mem_cons]
    · split
      · next heq =>
        rw [List.map_cons, List.mem_cons, heq]
        exact or_self_left.symm
      · rw [List.map_cons, List.map_cons, List.mem_cons, List.mem_cons, ih]
        exact or_left_comm

@[simp] theorem mem_ids_insert : id ∈ (s.insert doc).ids ↔ id = doc.id ∨ id ∈ s.ids :=
  mem_ids_insertAscending

@[simp] theorem mem_ids_insertAll :
    id ∈ (s.insertAll docs).ids ↔ id ∈ docs.map (·.id) ∨ id ∈ s.ids := by
  induction docs generalizing s with
  | nil => simp [insertAll]
  | cons d ds ih =>
    show id ∈ ((s.insert d).insertAll ds).ids ↔ _
    rw [ih, mem_ids_insert, List.map_cons, List.mem_cons, or_left_comm, or_assoc]

@[simp] theorem mem_ids_union : id ∈ (s.union t).ids ↔ id ∈ t.ids ∨ id ∈ s.ids := mem_ids_insertAll

@[simp] theorem mem_ids_ofList : id ∈ (ofList docs).ids ↔ id ∈ docs.map (·.id) := by
  rw [ofList, mem_ids_insertAll]
  exact or_iff_left (List.not_mem_nil)

theorem contains_iff : s.contains id ↔ id ∈ s.ids := by
  simp [contains, ids]

theorem pairwise_ids (s : DocumentSet) : s.ids.Pairwise (·.raw < ·.raw) :=
  List.pairwise_map.mpr s.ascending

/-- A set is determined by its identifiers in the order in which they are listed. -/
theorem sameIds_iff : s.sameIds t ↔ ∀ id, id ∈ s.ids ↔ id ∈ t.ids := by
  rw [sameIds, decide_eq_true_iff]
  constructor
  · intro h id
    rw [h]
  · intro h
    have hasymm : ∀ a b : DocumentId, a.raw < b.raw → b.raw < a.raw → a = b :=
      fun a b hab hba => absurd hba (Nat.lt_asymm hab)
    have hperm : s.ids.Perm t.ids :=
      (List.perm_ext_iff_of_nodup (s.pairwise_ids.imp fun hlt heq => by simp [heq] at hlt)
        (t.pairwise_ids.imp fun hlt heq => by simp [heq] at hlt)).mpr h
    exact hperm.eq_of_pairwise (fun a b _ _ => hasymm a b) s.pairwise_ids t.pairwise_ids

theorem insertAscending_eq_append (h : ∀ d ∈ docs, d.id.raw < doc.id.raw) :
    insertAscending doc docs = docs ++ [doc] := by
  induction docs with
  | nil => rfl
  | cons d ds ih =>
    have hlt := h d List.mem_cons_self
    have hne : doc.id ≠ d.id := fun heq => by simp [heq] at hlt
    rw [insertAscending, if_neg (Nat.lt_asymm hlt), if_neg hne,
      ih fun e he => h e (List.mem_cons_of_mem d he)]
    rfl

/-- Documents that ascend are listed as they are. -/
theorem ofList_docs (h : docs.Pairwise (·.id.raw < ·.id.raw)) : (ofList docs).docs = docs := by
  suffices ∀ s : DocumentSet, (s.docs ++ docs).Pairwise (·.id.raw < ·.id.raw) →
      (s.insertAll docs).docs = s.docs ++ docs from this empty h
  clear h
  induction docs with
  | nil => exact fun s _ => (List.append_nil _).symm
  | cons d ds ih =>
    intro s h
    have hinsert : (s.insert d).docs = s.docs ++ [d] :=
      insertAscending_eq_append fun e he =>
        (List.pairwise_append.mp h).2.2 e he d List.mem_cons_self
    show ((s.insert d).insertAll ds).docs = _
    rw [List.append_cons, ← hinsert] at h ⊢
    exact ih (s.insert d) h

end DocumentSet

namespace NodeSet

theorem documents_docs (s : NodeSet) : s.documents.docs = s.parts.map (·.doc) :=
  DocumentSet.ofList_docs (List.pairwise_map.mpr s.ascending)

theorem documents_sort (s : NodeSet) : s.sort.documents = s.documents := by
  rw [documents, documents, sort]
  split
  · rfl
  · show DocumentSet.ofList ((s.parts.map _).map _) = _
    rw [List.map_map]
    rfl

/-- The documents of a set are those of its nodes. -/
theorem mem_ids_documents {s : NodeSet} {doc : DocumentId} :
    doc ∈ s.documents.ids ↔ ∃ id, (doc, id) ∈ s := by
  rw [DocumentSet.ids, documents_docs, List.map_map, List.mem_map]
  constructor
  · rintro ⟨p, hp, rfl⟩
    obtain ⟨node, hnode⟩ := List.exists_mem_of_ne_nil _ (s.owned p hp).1
    exact ⟨node.id, p, hp, rfl, List.mem_map_of_mem hnode⟩
  · rintro ⟨id, p, hp, hdoc, -⟩
    exact ⟨p, hp, hdoc⟩

end NodeSet

end TreeAxes
