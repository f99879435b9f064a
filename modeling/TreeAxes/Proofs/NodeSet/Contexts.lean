import TreeAxes.Proofs.NodeSet.FiniteSet

/-!
# What a node set remembers

The context nodes of a node are spread over its copies, and merged when the set is sorted. A set
`Recalls` what some copy remembers, and sorting changes none of it.
-/

namespace TreeAxes

namespace NodeRef

variable {a b node : NodeRef} {c : ContextNode} {context cs : List ContextNode}

@[simp] theorem pushContext_key (node : NodeRef) (c : ContextNode) :
    (node.pushContext c).key = node.key := by simp [key]

/-- Context nodes are remembered one after the other if none repeats the one before it. -/
theorem context_pushContexts_of_ne (hlast : ∀ c ∈ cs.head?, node.context.getLast? ≠ some c)
    (hcs : cs.Nodup) : (node.pushContexts cs).context = node.context ++ cs := by
  rw [pushContexts_eq_foldl]
  induction cs generalizing node with
  | nil => exact (List.append_nil _).symm
  | cons c cs ih =>
    obtain ⟨hc, hcs⟩ := List.nodup_cons.mp hcs
    have hpush : (node.pushContext c).context = node.context ++ [c] := by
      rw [pushContext, if_neg (hlast c rfl)]
    have hnext : ∀ d ∈ cs.head?, (node.pushContext c).context.getLast? ≠ some d := by
      rintro d hd heq
      rw [hpush, List.getLast?_concat, Option.some_inj] at heq
      exact hc (heq ▸ List.mem_of_mem_head? hd)
    rw [List.foldl_cons, ih hnext hcs, hpush, ← List.append_cons]

/-- Of different context nodes, only the first can repeat what was remembered last. -/
theorem context_pushContexts_cons (node : NodeRef) (hcs : (c :: cs).Nodup) :
    (node.pushContexts (c :: cs)).context =
      node.context ++ if node.context.getLast? = some c then cs else c :: cs := by
  split
  · next hlast =>
    have hpush : node.pushContexts (c :: cs) = node.pushContexts cs := by
      rw [pushContexts_eq_foldl, List.foldl_cons, pushContext, if_pos hlast,
        ← pushContexts_eq_foldl]
    rw [hpush]
    refine context_pushContexts_of_ne (fun d hd heq => ?_) (List.nodup_cons.mp hcs).2
    obtain rfl := Option.some_inj.mp (hlast.symm.trans heq)
    exact (List.nodup_cons.mp hcs).1 (List.mem_of_mem_head? hd)
  · next hlast =>
    refine context_pushContexts_of_ne (fun d hd heq => hlast ?_) hcs
    rwa [← Option.mem_some_iff.mp hd] at heq

theorem mem_foldl_addNew (cs : List ContextNode) :
    c ∈ cs.foldl addNew context ↔ c ∈ context ∨ c ∈ cs := by
  induction cs generalizing context with
  | nil => simp
  | cons d cs ih =>
    rw [List.foldl_cons, ih, addNew, List.mem_cons, ← or_assoc]
    split
    · next hd =>
      refine or_congr_left (or_iff_left_of_imp ?_).symm
      rintro rfl
      exact hd
    · rw [List.mem_append, List.mem_singleton]

theorem nodup_foldl_addNew (h : context.Nodup) (cs : List ContextNode) :
    (cs.foldl addNew context).Nodup := by
  induction cs generalizing context with
  | nil => exact h
  | cons d cs ih =>
    refine ih ?_
    rw [addNew]
    split
    · exact h
    · next hd => exact List.nodup_append.mpr ⟨h, List.nodup_singleton d, by
        rintro e he _ hd' rfl
        rw [List.mem_singleton.mp hd'] at he
        exact hd he⟩

theorem mem_context_mergeContext :
    c ∈ (a.mergeContext b).context ↔ c ∈ a.context ∨ c ∈ b.context := mem_foldl_addNew _

theorem nodup_context_mergeContext (h : a.context.Nodup) : (a.mergeContext b).context.Nodup :=
  nodup_foldl_addNew h _

end NodeRef

namespace Partition

variable {p : Partition} {nodes copies : List NodeRef} {node : NodeRef} {id : Nat}
  {c : ContextNode}

/-- A merged node is the first of its copies, but for what it remembers. -/
theorem exists_same_of_merged? (h : merged? copies = some node) :
    ∃ copy ∈ copies, node.doc = copy.doc ∧ node.id = copy.id ∧ node.kind = copy.kind := by
  obtain ⟨first, others, rfl, rfl⟩ := merged?_eq_some_iff.mp h
  refine ⟨first, List.mem_cons_self, ?_⟩
  have hfold (a : NodeRef) (ha : a.doc = first.doc ∧ a.id = first.id ∧ a.kind = first.kind) :
      (others.foldl NodeRef.mergeContext a).doc = first.doc ∧
        (others.foldl NodeRef.mergeContext a).id = first.id ∧
          (others.foldl NodeRef.mergeContext a).kind = first.kind := by
    clear h
    induction others generalizing a with
    | nil => exact ha
    | cons other others ih => exact ih _ ha
  exact hfold first ⟨rfl, rfl, rfl⟩

/-- A merged node remembers what its copies remember. -/
theorem mem_context_of_merged? (h : merged? copies = some node) :
    c ∈ node.context ↔ ∃ copy ∈ copies, c ∈ copy.context := by
  obtain ⟨first, others, rfl, rfl⟩ := merged?_eq_some_iff.mp h
  clear h
  induction others generalizing first with
  | nil => simp
  | cons other others ih =>
    rw [List.foldl_cons, ih]
    simp only [List.mem_cons, exists_eq_or_imp, NodeRef.mem_context_mergeContext, or_assoc]

theorem nodup_context_of_merged? (h : merged? copies = some node)
    (hcopies : ∀ copy ∈ copies, copy.context.Nodup) : node.context.Nodup := by
  obtain ⟨first, others, rfl, rfl⟩ := merged?_eq_some_iff.mp h
  have hfirst := hcopies first List.mem_cons_self
  clear h hcopies
  induction others generalizing first with
  | nil => exact hfirst
  | cons other others ih => exact ih _ (NodeRef.nodup_context_mergeContext hfirst)

end Partition

namespace NodeSet

variable {s : NodeSet} {node : NodeRef} {nodes : List NodeRef} {key : DocumentId × Nat}
  {c : ContextNode}

/-- What sorting leaves of a set: of each node, its copies in one. -/
theorem mem_nodes_sort_iff :
    node ∈ s.sort.nodes ↔
      ∃ p ∈ s.parts, Partition.merged? (p.nodes.filter (·.id = node.id)) = some node := by
  rw [nodes, List.mem_flatMap, parts_sort]
  simp only [List.mem_map, exists_exists_and_eq_and, Partition.mem_mergeCopies_iff]

theorem mem_nodes_of_mem_part {p : Partition} (hp : p ∈ s.parts) (hnode : node ∈ p.nodes) :
    node ∈ s.nodes := List.mem_flatMap.mpr ⟨p, hp, hnode⟩

/-- A node of a sorted set is one of its copies, but for what it remembers. -/
theorem exists_same_of_mem_nodes_sort (h : node ∈ s.sort.nodes) :
    ∃ copy ∈ s.nodes, node.doc = copy.doc ∧ node.id = copy.id ∧ node.kind = copy.kind := by
  obtain ⟨p, hp, hmerged⟩ := mem_nodes_sort_iff.mp h
  obtain ⟨copy, hcopy, hsame⟩ := Partition.exists_same_of_merged? hmerged
  exact ⟨copy, mem_nodes_of_mem_part hp (List.mem_filter.mp hcopy).1, hsame⟩

/-- Some copy of a node remembers a context node. -/
def Recalls (s : NodeSet) (key : DocumentId × Nat) (c : ContextNode) : Prop :=
  ∃ node ∈ s.nodes, node.key = key ∧ c ∈ node.context

/-- Sorting forgets nothing and makes nothing up. -/
theorem recalls_sort : s.sort.Recalls key c ↔ s.Recalls key c := by
  constructor
  · rintro ⟨node, hnode, rfl, hc⟩
    obtain ⟨p, hp, hmerged⟩ := mem_nodes_sort_iff.mp hnode
    obtain ⟨first, hfirst, hdoc, -⟩ := Partition.exists_same_of_merged? hmerged
    obtain ⟨copy, hcopy, hc⟩ := (Partition.mem_context_of_merged? hmerged).mp hc
    obtain ⟨hfirst, -⟩ := List.mem_filter.mp hfirst
    obtain ⟨hcopy, hid⟩ := List.mem_filter.mp hcopy
    refine ⟨copy, mem_nodes_of_mem_part hp hcopy, Prod.ext ?_ (of_decide_eq_true hid), hc⟩
    show copy.doc.id = node.doc.id
    rw [(s.owned p hp).2 copy hcopy, hdoc, (s.owned p hp).2 first hfirst]
  · rintro ⟨copy, hcopy, rfl, hc⟩
    obtain ⟨p, hp, hcopy⟩ := List.mem_flatMap.mp hcopy
    have hmem : copy ∈ p.nodes.filter (·.id = copy.id) :=
      List.mem_filter.mpr ⟨hcopy, decide_eq_true rfl⟩
    obtain ⟨node, hmerged⟩ :
        ∃ node, Partition.merged? (p.nodes.filter (·.id = copy.id)) = some node := by
      cases hcopies : p.nodes.filter (·.id = copy.id) with
      | nil =>
        rw [hcopies] at hmem
        cases hmem
      | cons first others => exact ⟨_, rfl⟩
    have hid := Partition.id_eq_of_merged? hmerged
    obtain ⟨first, hfirst, hdoc, -⟩ := Partition.exists_same_of_merged? hmerged
    obtain ⟨hfirst, -⟩ := List.mem_filter.mp hfirst
    refine ⟨node, mem_nodes_sort_iff.mpr ⟨p, hp, hid ▸ hmerged⟩, Prod.ext ?_ hid,
      (Partition.mem_context_of_merged? hmerged).mpr ⟨copy, hmem, hc⟩⟩
    show node.doc.id = copy.doc.id
    rw [hdoc, (s.owned p hp).2 first hfirst, (s.owned p hp).2 copy hcopy]

/-- No node remembers a context node twice. -/
def RecallsOnce (s : NodeSet) : Prop := ∀ node ∈ s.nodes, node.context.Nodup

theorem RecallsOnce.sort (h : s.RecallsOnce) : s.sort.RecallsOnce := by
  intro node hnode
  obtain ⟨p, hp, hmerged⟩ := mem_nodes_sort_iff.mp hnode
  refine Partition.nodup_context_of_merged? hmerged fun copy hcopy => ?_
  exact h copy (mem_nodes_of_mem_part hp (List.mem_filter.mp hcopy).1)

/-! ## Additions -/

theorem insertNode_cases (node : NodeRef) (parts : List Partition) :
    ∃ before after, (parts = before ++ after ∧
        Partition.insertNode node parts = before ++ ⟨node.doc, #[node]⟩ :: after) ∨
      ∃ p, parts = before ++ p :: after ∧ p.doc.id = node.doc.id ∧
        Partition.insertNode node parts = before ++ p.add node :: after := by
  induction parts with
  | nil => exact ⟨[], [], .inl ⟨rfl, rfl⟩⟩
  | cons p parts ih =>
    rw [Partition.insertNode]
    split
    · exact ⟨[], p :: parts, .inl ⟨rfl, rfl⟩⟩
    · split
      · next hid => exact ⟨[], parts, .inr ⟨p, rfl, hid, rfl⟩⟩
      · obtain ⟨before, after, ⟨hparts, hinsert⟩ | ⟨q, hparts, hid, hinsert⟩⟩ := ih
        · exact ⟨p :: before, after, .inl ⟨congrArg _ hparts, congrArg _ hinsert⟩⟩
        · exact ⟨p :: before, after, .inr ⟨q, congrArg _ hparts, hid, congrArg _ hinsert⟩⟩

/-- An added node stands among the others, or it was merged into a copy. -/
theorem nodes_add_cases (s : NodeSet) (node : NodeRef) :
    ∃ before after, (s.nodes = before ++ after ∧ (s.add node).nodes = before ++ node :: after) ∨
      ∃ copy, s.nodes = before ++ copy :: after ∧ copy.key = node.key ∧
        (s.add node).nodes = before ++ copy.mergeContext node :: after := by
  have hadd : (s.add node).nodes = (Partition.insertNode node s.parts).flatMap (·.nodes) := rfl
  obtain ⟨before, after, ⟨hparts, hinsert⟩ | ⟨p, hparts, hid, hinsert⟩⟩ :=
    insertNode_cases node s.parts
  · refine ⟨before.flatMap (·.nodes), after.flatMap (·.nodes), .inl ⟨?_, ?_⟩⟩
    · rw [nodes, hparts, List.flatMap_append]
    · rw [hadd, hinsert, List.flatMap_append, List.flatMap_cons]
      rfl
  · have hs : s.nodes = before.flatMap (·.nodes) ++ (p.nodes ++ after.flatMap (·.nodes)) := by
      rw [nodes, hparts, List.flatMap_append, List.flatMap_cons]
    rw [hinsert, List.flatMap_append, List.flatMap_cons, Partition.nodes_add] at hadd
    have hp : p ∈ s.parts := hparts ▸ List.mem_append_right _ List.mem_cons_self
    obtain ⟨front, last, hnodes⟩ : ∃ front last, p.nodes = front ++ [last] := by
      obtain hnil | ⟨front, last, hnodes⟩ := List.eq_nil_or_concat p.nodes
      · exact absurd hnil (s.owned p hp).1
      · exact ⟨front, last, by rw [hnodes, List.concat_eq_append]⟩
    have hlast : last.doc.id = node.doc.id := by
      rw [← hid]
      exact (s.owned p hp).2 last (hnodes ▸ List.mem_append_right _ (List.mem_singleton.mpr rfl))
    rw [hnodes, Partition.append_concat] at hadd
    rw [hnodes] at hs
    split at hadd
    · next heq =>
      refine ⟨before.flatMap (·.nodes) ++ front, after.flatMap (·.nodes),
        .inr ⟨last, ?_, Prod.ext hlast heq, ?_⟩⟩
      · simpa using hs
      · simpa using hadd
    · refine ⟨before.flatMap (·.nodes) ++ (front ++ [last]), after.flatMap (·.nodes), .inl ⟨?_, ?_⟩⟩
      · simpa using hs
      · simpa using hadd

theorem recalls_add :
    (s.add node).Recalls key c ↔ s.Recalls key c ∨ node.key = key ∧ c ∈ node.context := by
  obtain ⟨before, after, ⟨hs, hadd⟩ | ⟨copy, hs, hkey, hadd⟩⟩ := s.nodes_add_cases node
  · simp only [Recalls, hs, hadd, List.mem_append, List.mem_cons]
    grind
  · have hmerged : (copy.mergeContext node).key = copy.key := rfl
    simp only [Recalls, hs, hadd, List.mem_append, List.mem_cons]
    have hc := @NodeRef.mem_context_mergeContext copy node c
    grind

/-- What holds of all nodes and is kept in a merge holds after a node is added. -/
theorem forall_mem_nodes_add {Q : NodeRef → Prop} (h : ∀ other ∈ s.nodes, Q other) (hnode : Q node)
    (hmerge : ∀ copy, Q copy → Q (copy.mergeContext node)) :
    ∀ other ∈ (s.add node).nodes, Q other := by
  intro other hother
  obtain ⟨before, after, ⟨hs, hadd⟩ | ⟨copy, hs, -, hadd⟩⟩ := s.nodes_add_cases node
  · rw [hadd, List.mem_append, List.mem_cons, or_left_comm, ← List.mem_append, ← hs] at hother
    obtain rfl | hother := hother
    · exact hnode
    · exact h other hother
  · have hcopy : Q copy := h copy (hs ▸ List.mem_append_right _ List.mem_cons_self)
    rw [hadd, List.mem_append, List.mem_cons, or_left_comm] at hother
    obtain rfl | hother := hother
    · exact hmerge copy hcopy
    · refine h other ?_
      rw [hs, List.mem_append, List.mem_cons]
      exact hother.imp_right .inr

theorem forall_mem_nodes_ofList {Q : NodeRef → Prop}
    (hmerge : ∀ a b, Q a → Q b → Q (a.mergeContext b)) (h : ∀ node ∈ nodes, Q node) :
    ∀ node ∈ (ofList nodes).nodes, Q node := by
  have hempty : ∀ node ∈ empty.nodes, Q node := nofun
  rw [ofList, addAll]
  refine List.foldlRecOn nodes add (motive := fun s => ∀ node ∈ s.nodes, Q node) hempty ?_
  intro s hs node hnode
  exact forall_mem_nodes_add hs (h node hnode) fun copy hcopy =>
    hmerge copy node hcopy (h node hnode)

/-- A node that is not there is added beside the others. -/
theorem perm_nodes_add (h : node.key ∉ s) : (s.add node).nodes.Perm (node :: s.nodes) := by
  obtain ⟨before, after, ⟨hs, hadd⟩ | ⟨copy, hs, hkey, hadd⟩⟩ := s.nodes_add_cases node
  · rw [hs, hadd]
    exact List.perm_middle
  · refine absurd (mem_iff_exists_node.mpr ⟨copy, ?_, hkey⟩) h
    exact hs ▸ List.mem_append_right _ List.mem_cons_self

theorem recalls_addAll :
    (s.addAll nodes).Recalls key c ↔
      s.Recalls key c ∨ ∃ node ∈ nodes, node.key = key ∧ c ∈ node.context := by
  induction nodes generalizing s with
  | nil => simp [addAll]
  | cons node nodes ih =>
    show ((s.add node).addAll nodes).Recalls key c ↔ _
    rw [ih, recalls_add, or_assoc]
    simp only [List.mem_cons, exists_eq_or_imp]

theorem recalls_ofList :
    (ofList nodes).Recalls key c ↔ ∃ node ∈ nodes, node.key = key ∧ c ∈ node.context := by
  refine recalls_addAll.trans (or_iff_right ?_)
  rintro ⟨node, hnode, -⟩
  cases hnode

theorem recallsOnce_ofList (h : ∀ node ∈ nodes, node.context.Nodup) :
    (ofList nodes).RecallsOnce :=
  forall_mem_nodes_ofList (fun _ _ ha _ => NodeRef.nodup_context_mergeContext ha) h

/-- A list without copies is only put in another order. -/
theorem perm_nodes_ofList (h : (nodes.map (·.key)).Nodup) : (ofList nodes).nodes.Perm nodes := by
  suffices ∀ s : NodeSet, (∀ node ∈ nodes, node.key ∉ s) →
      (s.addAll nodes).nodes.Perm (s.nodes ++ nodes) from
    this empty fun node _ => not_mem_empty node.key
  induction nodes with
  | nil => exact fun s _ => by rw [List.append_nil]; exact .refl _
  | cons node nodes ih =>
    intro s hs
    rw [List.map_cons, List.nodup_cons] at h
    obtain ⟨hnode, hnodes⟩ := List.forall_mem_cons.mp hs
    have hlater := ih h.2 (s.add node) fun other hother hmem => by
      obtain heq | hmem := mem_add.mp hmem
      · exact h.1 (heq ▸ List.mem_map_of_mem hother)
      · exact hnodes other hother hmem
    exact hlater.trans ((perm_nodes_add hnode).append_right nodes |>.trans List.perm_middle.symm)

end NodeSet

end TreeAxes
