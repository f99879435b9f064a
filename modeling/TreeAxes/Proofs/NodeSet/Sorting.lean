import Mathlib.Data.List.Nodup
import Mathlib.Data.List.Perm.Basic
import TreeAxes.NodeSet.Membership

/-!
# What sorting does

Sorting by identifier merges the copies of a node, and document order is reached from there: a set
that is in either order already comes out as if it had been sorted anew. So both kinds of sorting
are one function of the partitions, `parts_sort` and `parts_sortInDocumentOrder`, and a set without
copies is only put in another order.
-/

namespace TreeAxes

namespace Partition

variable {p q : Partition} {nodes copies : List NodeRef} {node : NodeRef}

theorem merged?_eq_some_iff : merged? copies = some node ↔
    ∃ first others, copies = first :: others ∧ others.foldl NodeRef.mergeContext first = node := by
  cases copies with
  | nil => exact iff_of_false nofun fun ⟨_, _, h, _⟩ => nomatch h
  | cons first others =>
    rw [merged?, NodeRef.mergeContexts_eq_foldl, Option.some_inj]
    constructor
    · intro h
      exact ⟨first, others, rfl, h⟩
    · rintro ⟨_, _, h, hnode⟩
      cases h
      exact hnode

/-- Without copies, one node is left of those that are told by the same. -/
theorem filter_eq_singleton {β : Type} [DecidableEq β] {tell : NodeRef → β}
    (h : (nodes.map tell).Nodup) (hnode : node ∈ nodes) :
    nodes.filter (tell · = tell node) = [node] := by
  induction nodes with
  | nil => cases hnode
  | cons first nodes ih =>
    rw [List.map_cons, List.nodup_cons] at h
    obtain ⟨hfirst, hnodes⟩ := h
    obtain rfl | hnode := List.mem_cons.mp hnode
    · rw [List.filter_cons_of_pos (by simp), List.filter_eq_nil_iff.mpr]
      intro other hother htell
      exact hfirst (of_decide_eq_true htell ▸ List.mem_map_of_mem hother)
    · have hne : tell first ≠ tell node := fun htell => hfirst (htell ▸ List.mem_map_of_mem hnode)
      rw [List.filter_cons_of_neg (by simpa using hne), ih hnodes hnode]

theorem nodup_ids_of_ascending (h : p.nodes.Pairwise (·.id < ·.id)) :
    (p.nodes.map (·.id)).Nodup := List.pairwise_map.mpr (h.imp Nat.ne_of_lt)

/-- Without copies there is nothing to merge. -/
theorem perm_mergeCopies (h : (p.nodes.map (·.id)).Nodup) : p.mergeCopies.nodes.Perm p.nodes := by
  refine (List.perm_ext_iff_of_nodup
    (List.Nodup.of_map _ (nodup_ids_of_ascending p.pairwise_mergeCopies))
    (List.Nodup.of_map _ h)).mpr fun node => ?_
  rw [mem_mergeCopies_iff]
  constructor
  · intro hmerged
    obtain ⟨first, others, hcopies, hnode⟩ := merged?_eq_some_iff.mp hmerged
    have hfirst : first ∈ p.nodes.filter (·.id = node.id) := hcopies ▸ List.mem_cons_self
    obtain ⟨hfirst, hid⟩ := List.mem_filter.mp hfirst
    rw [← of_decide_eq_true hid, filter_eq_singleton h hfirst, merged?_singleton] at hmerged
    rwa [← Option.some_inj.mp hmerged]
  · intro hnode
    rw [filter_eq_singleton h hnode, merged?_singleton]

theorem eq_of_nodes_eq (hdoc : p.doc = q.doc) (hnodes : p.nodes = q.nodes) : p = q := by
  cases p
  cases q
  cases hdoc
  exact congrArg _ (Array.toList_inj.mp hnodes)

theorem mergeCopies_of_ascending (h : p.nodes.Pairwise (·.id < ·.id)) : p.mergeCopies = p := by
  refine eq_of_nodes_eq rfl (eq_of_ascending p.pairwise_mergeCopies h fun node => ?_)
  exact (perm_mergeCopies (nodup_ids_of_ascending h)).mem_iff

@[simp] theorem mergeCopies_mergeCopies (p : Partition) :
    p.mergeCopies.mergeCopies = p.mergeCopies :=
  mergeCopies_of_ascending p.pairwise_mergeCopies

/-- Sorting by identifier undoes document order. -/
@[simp] theorem mergeCopies_sortInDocumentOrder (p : Partition) :
    p.mergeCopies.sortInDocumentOrder.mergeCopies = p.mergeCopies := by
  have hperm := p.mergeCopies.perm_sortInDocumentOrder
  have hnodup : (p.mergeCopies.sortInDocumentOrder.nodes.map (·.id)).Nodup :=
    (hperm.map _).nodup_iff.mpr (nodup_ids_of_ascending p.pairwise_mergeCopies)
  refine eq_of_nodes_eq rfl (eq_of_ascending (pairwise_mergeCopies _) p.pairwise_mergeCopies
    fun node => ?_)
  exact ((perm_mergeCopies hnodup).trans hperm).mem_iff

/-- A partition in document order comes out as it was when it is sorted by identifier and back. -/
theorem sortInDocumentOrder_mergeCopies (h : SortOrder.documentOrder.Holds p) :
    p.mergeCopies.sortInDocumentOrder = p := by
  have hnodup : (p.nodes.map (·.id)).Nodup := by
    refine List.pairwise_map.mpr (h.imp fun {a b} hlt heq => ?_)
    have hself : p.doc.numbering.compareDocumentOrder b.id b.id = .eq := Std.ReflCmp.compare_self
    rw [heq, hself] at hlt
    cases hlt
  refine eq_of_nodes_eq rfl (List.Perm.eq_of_pairwise ?_ (holds_documentOrder p.holds_byId) h
    (p.mergeCopies.perm_sortInDocumentOrder.trans (perm_mergeCopies hnodup)))
  intro a b _ _ hab hba
  change p.doc.numbering.compareDocumentOrder a.id b.id = .lt at hab
  change p.doc.numbering.compareDocumentOrder b.id a.id = .lt at hba
  exact absurd hba (Std.OrientedCmp.not_lt_of_lt hab)

end Partition

namespace NodeSet

variable {s : NodeSet}

theorem parts_sort (s : NodeSet) : s.sort.parts = s.parts.map Partition.mergeCopies := by
  rw [sort]
  split
  · next horder =>
    symm
    rw [List.map_congr_left fun p hp =>
      Partition.mergeCopies_of_ascending (pairwise_nodes_of_byId horder p hp), List.map_id']
  · rfl

theorem parts_sort_of_ascending (h : ∀ p ∈ s.parts, p.nodes.Pairwise (·.id < ·.id)) :
    s.sort.parts = s.parts := by
  rw [parts_sort, List.map_congr_left fun p hp => Partition.mergeCopies_of_ascending (h p hp),
    List.map_id']

theorem parts_sortInDocumentOrder (s : NodeSet) :
    s.sortInDocumentOrder.parts =
      s.parts.map fun p => p.mergeCopies.sortInDocumentOrder := by
  rw [sortInDocumentOrder]
  split
  · next horder =>
    symm
    rw [List.map_congr_left fun p hp =>
      Partition.sortInDocumentOrder_mergeCopies (horder ▸ s.sorted p hp), List.map_id']
  · next horder =>
    refine List.map_congr_left fun p hp => ?_
    rw [Partition.mergeCopies_of_ascending (pairwise_nodes_of_byId horder p hp)]
  · rfl

theorem perm_nodes_sortInDocumentOrder (s : NodeSet) :
    s.sortInDocumentOrder.nodes.Perm s.sort.nodes := by
  rw [nodes, nodes, parts_sort, parts_sortInDocumentOrder, List.flatMap_map, List.flatMap_map]
  exact .flatMap_left _ fun p _ => p.mergeCopies.perm_sortInDocumentOrder

/-! ## Sets without copies -/

theorem nodup_ids_of_nodup_keys {p : Partition} (h : (s.nodes.map (·.key)).Nodup)
    (hp : p ∈ s.parts) : (p.nodes.map (·.id)).Nodup := by
  rw [nodes, List.map_flatMap, List.nodup_flatMap] at h
  have hkeys := List.pairwise_map.mp (h.1 p hp)
  refine List.pairwise_map.mpr (hkeys.imp_of_mem fun {a b} ha hb hne hid => hne ?_)
  refine Prod.ext ?_ hid
  show a.doc.id = b.doc.id
  rw [(s.owned p hp).2 a ha, (s.owned p hp).2 b hb]

theorem perm_nodes_sort (h : (s.nodes.map (·.key)).Nodup) : s.sort.nodes.Perm s.nodes := by
  rw [nodes, nodes, parts_sort, List.flatMap_map]
  exact .flatMap_left _ fun p hp => p.perm_mergeCopies (nodup_ids_of_nodup_keys h hp)

theorem perm_toDocumentOrder (h : (s.nodes.map (·.key)).Nodup) :
    s.toDocumentOrder.Perm s.nodes :=
  s.perm_nodes_sortInDocumentOrder.trans (perm_nodes_sort h)

end NodeSet

end TreeAxes
