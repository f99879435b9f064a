import TreeAxes.Proofs.NodeSet.Assembly

/-!
# Marked sets

The nodes of a set can be made their own context nodes. That marks them, but does not count as a
change of the set, and neither does anything else but additions and removals: without these, a set
keeps its nodes and recalls what it recalled, and the marks.
-/

namespace TreeAxes

namespace NodeSet

variable {s t u : NodeSet} {key : DocumentId × Nat} {c : ContextNode} {store : Store}
  {marked marked' : Prop}

theorem recalls_setSelfAsContext : s.setSelfAsContext.Recalls key c ↔
    s.Recalls key c ∨ key ∈ s ∧ c = ⟨key.1, key.2⟩ := by
  have hnodes : s.setSelfAsContext.nodes =
      s.nodes.map fun node => node.pushContext node.asContext := by
    show (s.parts.map Partition.setSelfAsContext).flatMap _ = (s.parts.flatMap _).map _
    rw [List.flatMap_map, List.map_flatMap]
    exact List.flatMap_congr fun p _ => p.nodes_setSelfAsContext
  rw [Recalls, hnodes, mem_iff_exists_node]
  simp only [List.mem_map, exists_exists_and_eq_and, NodeRef.pushContext_key,
    NodeRef.mem_context_pushContext]
  constructor
  · rintro ⟨node, hnode, rfl, hc | rfl⟩
    · exact .inl ⟨node, hnode, rfl, hc⟩
    · exact .inr ⟨⟨node, hnode, rfl⟩, rfl⟩
  · rintro (⟨node, hnode, rfl, hc⟩ | ⟨⟨node, hnode, rfl⟩, rfl⟩)
    · exact ⟨node, hnode, rfl, .inl hc⟩
    · exact ⟨node, hnode, rfl, .inr rfl⟩

/-- A set that was not changed since. It may have been sorted, and its nodes may have been marked as
their own context nodes. -/
structure Remains (marked : Prop) (s t : NodeSet) : Prop where
  twin : s.Twin t
  recalls_iff : ∀ key c,
    t.Recalls key c ↔ s.Recalls key c ∨ marked ∧ key ∈ s ∧ c = ⟨key.1, key.2⟩

namespace Remains

theorem of_recalls (htwin : s.Twin t) (h : ∀ key c, t.Recalls key c ↔ s.Recalls key c)
    (hnot : ¬marked) : s.Remains marked t :=
  ⟨htwin, fun key c => (h key c).trans (or_iff_left fun hmarked => hnot hmarked.1).symm⟩

theorem trans (h : s.Remains marked t) (h' : t.Remains marked' u) :
    s.Remains (marked ∨ marked') u where
  twin := h.twin.trans h'.twin
  recalls_iff key c := by
    rw [h'.recalls_iff, h.recalls_iff, ← h.twin.mem_key_iff, or_and_right, or_assoc]

/-- What the set recalled is recalled. -/
theorem recalledBy (h : s.Remains marked t) (hs : s.Uniform) : s.RecalledBy False c t :=
  ⟨hs, h.twin, fun key hrecalls => .inr ((h.recalls_iff key c).mpr (.inl hrecalls))⟩

/-- What the set recalls now was recalled, but for marks. -/
theorem recalledBy_symm (h : s.Remains marked t) (hs : s.Uniform) {own : Prop}
    (hown : marked → (c.document, c.id) ∈ t → own) : t.RecalledBy own c s where
  uniform := h.twin.uniform hs
  twin := h.twin.symm
  recalls key hrecalls := by
    obtain hrecalls | ⟨hmarked, hkey, rfl⟩ := (h.recalls_iff key c).mp hrecalls
    · exact .inr hrecalls
    · exact .inl ⟨hown hmarked (h.twin.mem_key_iff.mp hkey), rfl⟩

end Remains

/-- A set is made of its nodes. -/
theorem MadeOf.self (s : NodeSet) : s.MadeOf s.nodes where
  mem_iff _ := mem_iff_exists_node
  recalls_iff _ _ := Iff.rfl

theorem added_eq_nil {operation : Operation} (hnone : s.mutations operation = 0) :
    operation.added = [] := by
  cases operation with
  | add node => cases hnone
  | addAll nodes => exact List.eq_nil_of_length_eq_zero hnone
  | addSet other => exact List.eq_nil_of_length_eq_zero hnone
  | _ => rfl

/-- An operation that does not count as a change changes nothing, unless it marks the nodes. -/
theorem Uniform.remains_perform (h : s.Uniform) {operation : Operation}
    (hnone : s.mutations operation = 0) :
    s.Remains (operation = .setSelfAsContext) (s.perform operation) := by
  have htwin := h.twin_perform hnone
  by_cases hassembles : operation.Assembles
  · refine .of_recalls htwin (fun key c => ?_) ?_
    · rw [((MadeOf.self s).perform hassembles).recalls_iff, added_eq_nil hnone, List.append_nil]
      exact Iff.rfl
    · rintro rfl
      exact hassembles
  · cases operation with
    | setSelfAsContext =>
      refine ⟨htwin, fun key c => ?_⟩
      rw [eq_self, true_and]
      exact recalls_setSelfAsContext
    | remove node =>
      refine .of_recalls htwin (fun key c => ?_) (by rintro ⟨⟩)
      rw [perform_remove_eq_sort hnone]
      exact recalls_sort
    | _ => exact absurd trivial hassembles

/-- A twin of a stored set is stored. -/
theorem StoredIn.of_twin (h : s.StoredIn store) (hstore : store.Sound) (htwin : s.Twin t) :
    t.StoredIn store := by
  intro q hq
  have hdoc : q.doc ∈ s.parts.map (·.doc) := htwin.docs ▸ List.mem_map_of_mem hq
  obtain ⟨p, hp, hsame⟩ := List.mem_map.mp hdoc
  obtain ⟨d, hd, hpdoc, -⟩ := h p hp
  refine ⟨d, hd, hsame.symm.trans hpdoc, fun node hnode => ?_⟩
  obtain ⟨other, hother, hbare⟩ := htwin.symm.exists_bare_eq (mem_nodes_of_mem_part hq hnode)
  obtain ⟨e, he, hodoc, hholds⟩ := h.of_mem_nodes hother
  obtain ⟨hndoc, hid, hkind⟩ := NodeRef.bare_eq_iff.mp hbare
  obtain rfl : e = d := by
    refine hstore.eq_of_id he hd ?_
    rw [← hodoc, hndoc, (t.owned q hq).2 node hnode, ← hpdoc, hsame]
  rw [← hndoc, ← hid, ← hkind]
  exact ⟨hodoc, hholds⟩

end NodeSet

end TreeAxes
