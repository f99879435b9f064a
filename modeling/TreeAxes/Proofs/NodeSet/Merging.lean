import TreeAxes.Proofs.NodeSet.Stored

/-!
# When copies are merged

A copy of a node is merged when it is added behind another one, or when the set is sorted, which
may be long after and more than once. Merging is associative and sorting is stable, so none of
this shows: once a set is sorted, a node is the earliest of the copies that were added since it
was last removed, and remembers what the copies remember, in the order of their addition.

Sets that are equal once sorted stay so under every operation that marks nothing
(`sort_perform_congr`), and what the copies of a node come to can be followed from one operation
to the next (`mergedAt?_perform`). The main statement is `collapsesCopies`.
-/

namespace TreeAxes

namespace NodeRef

variable {a b c : NodeRef} {kept : Option NodeRef} {node : NodeRef}

/-- Adding what was merged is adding one after the other. -/
theorem foldl_addNew_foldl (context bs cs : List ContextNode) :
    (cs.foldl addNew bs).foldl addNew context = cs.foldl addNew (bs.foldl addNew context) := by
  induction cs generalizing bs with
  | nil => rfl
  | cons c cs ih =>
    rw [List.foldl_cons, ih, List.foldl_cons]
    congr 1
    rw [addNew]
    split
    · next hmem => rw [addNew, if_pos ((mem_foldl_addNew bs).mpr (.inr hmem))]
    · rw [List.foldl_append, List.foldl_cons, List.foldl_nil]

/-- Merging is associative. -/
theorem mergeContext_mergeContext (a b c : NodeRef) :
    a.mergeContext (b.mergeContext c) = (a.mergeContext b).mergeContext c :=
  congrArg (fun context => { a with context }) (foldl_addNew_foldl a.context b.context c.context)

/-- A copy beside those that are in one already. -/
def absorb (kept : Option NodeRef) (node : NodeRef) : NodeRef :=
  kept.elim node (·.mergeContext node)

theorem absorb_mergeContext (kept : Option NodeRef) (a b : NodeRef) :
    absorb kept (a.mergeContext b) = (absorb kept a).mergeContext b := by
  cases kept with
  | none => rfl
  | some first => exact mergeContext_mergeContext first a b

/-- All copies of a node in one: the earliest, and in its context those of the others, merged one
after the other. -/
def inOne? : List NodeRef → Option NodeRef
  | [] => none
  | first :: others => some { first with context := (others.foldl mergeContext first).context }

end NodeRef

namespace Partition

variable {p q : Partition} {node : NodeRef} {nodes copies : List NodeRef} {id : Nat}
  {doc : DocumentId}

theorem merged?_eq_inOne? (copies : List NodeRef) : merged? copies = NodeRef.inOne? copies := by
  cases copies with
  | nil => rfl
  | cons first others =>
    rw [merged?, NodeRef.mergeContexts_eq_foldl, NodeRef.inOne?, Option.some_inj]
    induction others generalizing first with
    | nil => rfl
    | cons other others ih => exact ih (first.mergeContext other)

theorem merged?_concat (copies : List NodeRef) (node : NodeRef) :
    merged? (copies ++ [node]) = some (NodeRef.absorb (merged? copies) node) := by
  cases copies with
  | nil => exact merged?_singleton node
  | cons first others =>
    rw [List.cons_append, merged?, merged?, NodeRef.mergeContexts_eq_foldl,
      NodeRef.mergeContexts_eq_foldl, List.foldl_append]
    rfl

/-- What the copies of a node come to, whether they are merged or not. -/
def mergedAt? (p : Partition) (id : Nat) : Option NodeRef := merged? (p.nodes.filter (·.id = id))

/-- An added node is absorbed, whether it is merged at once or later. -/
theorem mergedAt?_add (p : Partition) (node : NodeRef) (id : Nat) :
    (p.add node).mergedAt? id =
      if node.id = id then some (NodeRef.absorb (p.mergedAt? id) node) else p.mergedAt? id := by
  have hconcat (nodes : List NodeRef) : merged? ((nodes ++ [node]).filter (·.id = id)) =
      if node.id = id then some (NodeRef.absorb (merged? (nodes.filter (·.id = id))) node)
      else merged? (nodes.filter (·.id = id)) := by
    rw [List.filter_append]
    split
    · next hid =>
      rw [List.filter_cons_of_pos (by simpa using hid), List.filter_nil, merged?_concat]
    · next hid =>
      rw [List.filter_cons_of_neg (by simpa using hid), List.filter_nil, List.append_nil]
  rw [mergedAt?, mergedAt?, nodes_add]
  obtain hnil | ⟨front, last, hnodes⟩ := List.eq_nil_or_concat p.nodes
  · rw [hnil]
    exact hconcat []
  rw [List.concat_eq_append] at hnodes
  rw [hnodes, append_concat]
  split
  · next hsame =>
    rw [List.filter_append, List.filter_append]
    by_cases hid : node.id = id
    · have hlast : last.id = id := hsame.trans hid
      rw [if_pos hid, List.filter_cons_of_pos (by exact decide_eq_true hlast), List.filter_nil,
        List.filter_cons_of_pos (by simpa using hlast), List.filter_nil, merged?_concat,
        merged?_concat, NodeRef.absorb_mergeContext]
      rfl
    · have hlast : last.id ≠ id := fun heq => hid (hsame.symm.trans heq)
      rw [if_neg hid, List.filter_cons_of_neg (by exact mt of_decide_eq_true hlast),
        List.filter_nil, List.filter_cons_of_neg (by simpa using hlast), List.filter_nil]
  · rw [show front ++ [last, node] = front ++ [last] ++ [node] by simp]
    exact hconcat _

/-- Without copies, entries are what they come to. -/
theorem mergedAt?_eq_some_iff (h : (p.nodes.map (·.id)).Nodup) :
    p.mergedAt? id = some node ↔ node ∈ p.nodes ∧ node.id = id := by
  constructor
  · intro hmerged
    obtain rfl := id_eq_of_merged? hmerged
    have hmem := mem_mergeCopies_iff.mpr hmerged
    exact ⟨(perm_mergeCopies h).mem_iff.mp hmem, rfl⟩
  · rintro ⟨hnode, rfl⟩
    rw [mergedAt?, filter_eq_singleton h hnode, merged?_singleton]

theorem mergedAt?_mergeCopies (p : Partition) (id : Nat) :
    p.mergeCopies.mergedAt? id = p.mergedAt? id := by
  refine Option.ext fun node => ?_
  rw [mergedAt?_eq_some_iff (nodup_ids_of_ascending p.pairwise_mergeCopies), mem_mergeCopies_iff]
  constructor
  · rintro ⟨hmerged, rfl⟩
    exact hmerged
  · intro hmerged
    obtain rfl := id_eq_of_merged? hmerged
    exact ⟨hmerged, rfl⟩

/-- Partitions in which copies come to the same are the same once copies are merged. -/
theorem mergeCopies_eq_of_mergedAt? (hdoc : p.doc = q.doc)
    (h : ∀ id, p.mergedAt? id = q.mergedAt? id) : p.mergeCopies = q.mergeCopies := by
  refine eq_of_nodes_eq hdoc ?_
  refine eq_of_ascending p.pairwise_mergeCopies q.pairwise_mergeCopies fun node => ?_
  have hmerged : p.mergedAt? node.id = some node ↔ q.mergedAt? node.id = some node := by rw [h]
  rw [mem_mergeCopies_iff, mem_mergeCopies_iff]
  exact hmerged

/-- Copies may be merged before a node is added, or after it. -/
theorem mergeCopies_add (p : Partition) (node : NodeRef) :
    (p.mergeCopies.add node).mergeCopies = (p.add node).mergeCopies :=
  mergeCopies_eq_of_mergedAt? rfl fun id => by simp only [mergedAt?_add, mergedAt?_mergeCopies]

/-- Copies may be merged everywhere before a node is inserted, or after it. -/
theorem map_mergeCopies_insertNode (node : NodeRef) (parts : List Partition) :
    (insertNode node (parts.map mergeCopies)).map mergeCopies =
      (insertNode node parts).map mergeCopies := by
  induction parts with
  | nil => rfl
  | cons p parts ih =>
    have hdoc : p.mergeCopies.doc = p.doc := rfl
    have hparts : (parts.map mergeCopies).map mergeCopies = parts.map mergeCopies := by simp
    rw [List.map_cons, insertNode, insertNode, hdoc]
    split
    · rw [List.map_cons, List.map_cons, List.map_cons, List.map_cons, hparts,
        mergeCopies_mergeCopies]
    · split
      · rw [List.map_cons, List.map_cons, hparts, mergeCopies_add]
      · rw [List.map_cons, List.map_cons, ih, mergeCopies_mergeCopies]

/-- No partition is there for a document that comes before all others. -/
theorem find?_doc_eq_none {parts : List Partition}
    (h : (p :: parts).Pairwise (·.doc.id.raw < ·.doc.id.raw)) (hlt : doc.raw < p.doc.id.raw) :
    (p :: parts).find? (·.doc.id = doc) = none := by
  rw [List.find?_eq_none]
  intro q hq hid
  have hle : p.doc.id.raw ≤ q.doc.id.raw := by
    obtain rfl | hq := List.mem_cons.mp hq
    · exact Nat.le_refl _
    · exact Nat.le_of_lt ((List.pairwise_cons.mp h).1 q hq)
  rw [of_decide_eq_true hid] at hle
  omega

/-- Inserting a node concerns the partition of its document only. -/
theorem find?_insertNode {parts : List Partition} (node : NodeRef) (doc : DocumentId)
    (h : parts.Pairwise (·.doc.id.raw < ·.doc.id.raw)) :
    (insertNode node parts).find? (·.doc.id = doc) =
      if node.doc.id = doc then
        some ((parts.find? (·.doc.id = doc)).elim ⟨node.doc, #[node]⟩ (·.add node))
      else parts.find? (·.doc.id = doc) := by
  induction parts with
  | nil => by_cases hdoc : node.doc.id = doc <;> simp [insertNode, hdoc]
  | cons p parts ih =>
    rw [insertNode]
    split
    · next hlt =>
      by_cases hdoc : node.doc.id = doc
      · rw [if_pos hdoc, find?_doc_eq_none h (hdoc ▸ hlt),
          List.find?_cons_of_pos (by simpa using hdoc)]
        rfl
      · rw [if_neg hdoc, List.find?_cons_of_neg (by simpa using hdoc)]
    · split
      · next hid =>
        by_cases hdoc : node.doc.id = doc
        · have hpdoc : p.doc.id = doc := hid.trans hdoc
          rw [if_pos hdoc, List.find?_cons_of_pos (by exact decide_eq_true hpdoc),
            List.find?_cons_of_pos (by simpa using hpdoc)]
          rfl
        · have hpdoc : p.doc.id ≠ doc := fun heq => hdoc (hid.symm.trans heq)
          rw [if_neg hdoc, List.find?_cons_of_neg (by exact mt of_decide_eq_true hpdoc),
            List.find?_cons_of_neg (by simpa using hpdoc)]
      · next hid =>
        by_cases hpdoc : p.doc.id = doc
        · have hdoc : node.doc.id ≠ doc := fun heq => hid (hpdoc.trans heq.symm)
          rw [if_neg hdoc, List.find?_cons_of_pos (by simpa using hpdoc),
            List.find?_cons_of_pos (by simpa using hpdoc)]
        · rw [List.find?_cons_of_neg (by simpa using hpdoc), ih (List.pairwise_cons.mp h).2,
            List.find?_cons_of_neg (by simpa using hpdoc)]

end Partition

namespace NodeSet

variable {s t : NodeSet} {node : NodeRef} {nodes copies : List NodeRef} {key : DocumentId × Nat}
  {doc : DocumentId} {id : Nat} {operation : Operation}

/-! ## Sets that are equal once sorted -/

theorem eq_of_parts_eq (hparts : s.parts = t.parts) (horder : s.order = t.order)
    (hrevision : s.revision = t.revision) : s = t := by
  cases s
  cases t
  cases hparts
  cases horder
  cases hrevision
  rfl

theorem sort_eq_sort_of_parts
    (hparts : s.parts.map Partition.mergeCopies = t.parts.map Partition.mergeCopies)
    (hrevision : s.revision = t.revision) : s.sort = t.sort :=
  eq_of_parts_eq (by rw [parts_sort, parts_sort, hparts]) (s.sort_order.trans t.sort_order.symm)
    (by rw [sort_revision, sort_revision, hrevision])

/-- Document order leaves no trace in a set that is sorted by identifier. -/
theorem sort_sortInDocumentOrder (s : NodeSet) : s.sortInDocumentOrder.sort = s.sort := by
  refine sort_eq_sort_of_parts ?_ s.sortInDocumentOrder_revision
  rw [parts_sortInDocumentOrder, List.map_map]
  exact List.map_congr_left fun p _ => p.mergeCopies_sortInDocumentOrder

theorem sortInDocumentOrder_sort (s : NodeSet) :
    s.sort.sortInDocumentOrder = s.sortInDocumentOrder := by
  refine eq_of_parts_eq ?_ ?_ ?_
  · rw [parts_sortInDocumentOrder, parts_sortInDocumentOrder, parts_sort, List.map_map]
    refine List.map_congr_left fun p _ => ?_
    rw [Function.comp_apply, Partition.mergeCopies_mergeCopies]
  · rw [sortInDocumentOrder_order, sortInDocumentOrder_order]
  · rw [sortInDocumentOrder_revision, sortInDocumentOrder_revision, sort_revision]

theorem sort_sort_add (s : NodeSet) (node : NodeRef) :
    (s.sort.add node).sort = (s.add node).sort := by
  refine sort_eq_sort_of_parts ?_ (congrArg (· + 1) s.sort_revision)
  show (Partition.insertNode node s.sort.parts).map _ = _
  rw [parts_sort]
  exact Partition.map_mergeCopies_insertNode node s.parts

theorem sort_add_congr (h : s.sort = t.sort) (node : NodeRef) :
    (s.add node).sort = (t.add node).sort := by
  rw [← sort_sort_add, h, sort_sort_add]

theorem sort_addAll_congr (h : s.sort = t.sort) (nodes : List NodeRef) :
    (s.addAll nodes).sort = (t.addAll nodes).sort := by
  induction nodes generalizing s t with
  | nil => exact h
  | cons node nodes ih => exact ih (sort_add_congr h node)

/-- Whether an operation adds to a set or removes from it. -/
def Operation.changes : Operation → Bool
  | .add _ | .addAll _ | .addSet _ | .remove _ => true
  | _ => false

/-- What asks a set for something may sort it, and that is all. -/
theorem sort_perform_of_not_changes (h : operation.changes = false)
    (hmarks : operation ≠ .setSelfAsContext) : (s.perform operation).sort = s.sort := by
  cases operation with
  | add | addAll | addSet | remove => cases h
  | setSelfAsContext => exact absurd rfl hmarks
  | _ =>
    exact perform_of_asks (motive := (·.sort = s.sort)) rfl rfl s.sort_sort
      s.sort_sortInDocumentOrder

/-- Sets that are equal once sorted are so after a change, too. -/
theorem sort_perform_congr (h : s.sort = t.sort) (hchanges : operation.changes = true) :
    (s.perform operation).sort = (t.perform operation).sort := by
  cases operation with
  | add node => exact sort_add_congr h node
  | addAll nodes => exact sort_addAll_congr h nodes
  | addSet other => exact sort_addAll_congr h other.nodes
  | remove node =>
    show (s.remove node).2.sort = (t.remove node).2.sort
    rw [remove, remove, h]
  | _ => cases hchanges

/-- Sorting and asking in between changes nothing in the end. -/
theorem sort_foldl_perform (operations : List Operation)
    (hmarks : ∀ operation ∈ operations, operation ≠ .setSelfAsContext) (h : s.sort = t.sort) :
    (operations.foldl perform s).sort =
      ((operations.filter Operation.changes).foldl perform t).sort := by
  induction operations generalizing s t with
  | nil => exact h
  | cons operation operations ih =>
    obtain ⟨hfirst, hrest⟩ := List.forall_mem_cons.mp hmarks
    rw [List.foldl_cons]
    cases hchanges : operation.changes with
    | true =>
      rw [List.filter_cons_of_pos hchanges, List.foldl_cons]
      exact ih hrest (sort_perform_congr h hchanges)
    | false =>
      rw [List.filter_cons_of_neg (by simp [hchanges])]
      exact ih hrest ((sort_perform_of_not_changes hchanges hfirst).trans h)

/-! ## What copies come to -/

/-- What the copies of a node in a set come to. -/
def mergedAt? (s : NodeSet) (key : DocumentId × Nat) : Option NodeRef :=
  (s.part? key.1).bind (·.mergedAt? key.2)

theorem mergedAt?_sort (s : NodeSet) (key : DocumentId × Nat) :
    s.sort.mergedAt? key = s.mergedAt? key := by
  have hpart : s.sort.part? key.1 = (s.part? key.1).map Partition.mergeCopies := by
    rw [part?, parts_sort, List.find?_map]
    rfl
  rw [mergedAt?, mergedAt?, hpart]
  cases s.part? key.1 with
  | none => rfl
  | some p => exact p.mergedAt?_mergeCopies key.2

theorem mergedAt?_add (s : NodeSet) (node : NodeRef) (key : DocumentId × Nat) :
    (s.add node).mergedAt? key =
      if node.key = key then some (NodeRef.absorb (s.mergedAt? key) node) else s.mergedAt? key := by
  have hpart := Partition.find?_insertNode node key.1 s.ascending
  change (s.add node).part? key.1 = if _ then some ((s.part? key.1).elim _ _) else s.part? key.1
    at hpart
  have hkey : node.key = key ↔ node.doc.id = key.1 ∧ node.id = key.2 := Prod.ext_iff
  rw [mergedAt?, mergedAt?, hpart]
  split
  · next hdoc =>
    have hid : node.key = key ↔ node.id = key.2 := by rw [hkey, and_iff_right hdoc]
    rw [Option.bind_some]
    simp only [hid]
    cases s.part? key.1 with
    | none =>
      have hnew : ([node].filter (·.id = key.2)) = if node.id = key.2 then [node] else [] := by
        simp [List.filter_cons]
      show Partition.merged? _ = if _ then some node else none
      rw [show (Partition.nodes _).filter _ = _ from hnew]
      split
      · exact Partition.merged?_singleton node
      · rfl
    | some p => exact p.mergedAt?_add node key.2
  · next hdoc => rw [if_neg (mt (fun h => (hkey.mp h).1) hdoc)]

theorem mergedAt?_addAll (h : s.mergedAt? key = NodeRef.inOne? copies) (nodes : List NodeRef) :
    (s.addAll nodes).mergedAt? key = NodeRef.inOne? (copies ++ nodes.filter (·.key = key)) := by
  induction nodes generalizing s copies with
  | nil => rwa [List.filter_nil, List.append_nil]
  | cons node nodes ih =>
    show ((s.add node).addAll nodes).mergedAt? key = _
    have hadd := s.mergedAt?_add node key
    rw [h] at hadd
    split at hadd
    · next hkey =>
      rw [List.filter_cons_of_pos (by simpa using hkey), List.append_cons]
      refine ih ?_
      rw [hadd, ← Partition.merged?_eq_inOne?, ← Partition.merged?_eq_inOne?,
        Partition.merged?_concat]
    · next hkey =>
      rw [List.filter_cons_of_neg (by simpa using hkey)]
      exact ih hadd

/-- In a set without copies, entries are what they come to. -/
theorem mergedAt?_eq_some_iff (h : s.order = .byId) :
    s.mergedAt? key = some node ↔ node ∈ s.nodes ∧ node.key = key := by
  have hkey : node.key = key ↔ node.doc.id = key.1 ∧ node.id = key.2 := Prod.ext_iff
  rw [hkey, ← and_assoc, mem_nodes_iff_part?, mergedAt?, Option.bind_eq_some_iff]
  constructor
  · rintro ⟨p, hpart, hmerged⟩
    have hp := pairwise_nodes_of_byId h p (part?_eq_some_iff.mp hpart).1
    obtain ⟨hnode, hid⟩ :=
      (Partition.mergedAt?_eq_some_iff (Partition.nodup_ids_of_ascending hp)).mp hmerged
    exact ⟨⟨p, hpart, hnode⟩, hid⟩
  · rintro ⟨⟨p, hpart, hnode⟩, hid⟩
    have hp := pairwise_nodes_of_byId h p (part?_eq_some_iff.mp hpart).1
    exact ⟨p, hpart,
      (Partition.mergedAt?_eq_some_iff (Partition.nodup_ids_of_ascending hp)).mpr ⟨hnode, hid⟩⟩

/-- A lookup finds what the copies come to. -/
theorem lookup?_eq_mergedAt? (h : s.order = .byId) (doc : DocumentId) (id : Nat) :
    s.lookup? doc id = s.mergedAt? (doc, id) := by
  rw [lookup?, mergedAt?]
  cases hpart : s.part? doc with
  | none => rfl
  | some p =>
    have hp := pairwise_nodes_of_byId h p (part?_eq_some_iff.mp hpart).1
    refine Option.ext fun node => ?_
    exact (Partition.find?_eq_some_iff hp).trans
      (Partition.mergedAt?_eq_some_iff (Partition.nodup_ids_of_ascending hp)).symm

/-- Without copies, the entries of a set are told apart by what they name. -/
theorem eq_of_key_eq (h : s.order = .byId) {other : NodeRef} (hnode : node ∈ s.nodes)
    (hother : other ∈ s.nodes) (hkey : node.key = other.key) : node = other :=
  List.inj_on_of_nodup_map (nodup_keys (fun _ _ => Nat.ne_of_lt) (pairwise_nodes_of_order_byId h))
    hnode hother hkey

theorem mem_nodes_erase (h : s.order = .byId) :
    node ∈ (s.erase doc id).nodes ↔ node ∈ s.nodes ∧ node.key ≠ (doc, id) := by
  have hsub : ∀ other ∈ (s.erase doc id).nodes, other ∈ s.nodes := by
    intro other hother
    obtain ⟨q, hq, hother⟩ := List.mem_flatMap.mp hother
    obtain ⟨p, hp, hpq⟩ := List.mem_filterMap.mp hq
    exact mem_nodes_of_mem_part hp ((erasedPart?_eq_some hpq).2.1.subset hother)
  constructor
  · intro hnode
    have hmem : node.key ∈ s.erase doc id := mem_iff_exists_node.mpr ⟨node, hnode, rfl⟩
    exact ⟨hsub node hnode, ((mem_erase h).mp hmem).1⟩
  · rintro ⟨hnode, hkey⟩
    have hmem : node.key ∈ s := mem_iff_exists_node.mpr ⟨node, hnode, rfl⟩
    obtain ⟨other, hother, hsame⟩ := mem_iff_exists_node.mp ((mem_erase h).mpr ⟨hkey, hmem⟩)
    rwa [eq_of_key_eq h hnode (hsub other hother) hsame.symm]

theorem remove_order (s : NodeSet) (node : NodeRef) : (s.remove node).2.order = .byId := by
  rw [remove]
  split <;> exact s.sort_order

theorem mem_nodes_remove {other : NodeRef} :
    other ∈ (s.remove node).2.nodes ↔ other ∈ s.sort.nodes ∧ other.key ≠ node.key := by
  rw [remove]
  split
  · exact mem_nodes_erase s.sort_order
  · next hnone =>
    refine (and_iff_left_of_imp fun hother hkey => hnone ?_).symm
    exact (isSome_lookup?_iff s.sort_order).mpr (mem_iff_exists_node.mpr ⟨other, hother, hkey⟩)

theorem mergedAt?_remove (s : NodeSet) (node : NodeRef) (key : DocumentId × Nat) :
    (s.remove node).2.mergedAt? key = if node.key = key then none else s.mergedAt? key := by
  refine Option.ext fun other => ?_
  rw [mergedAt?_eq_some_iff (s.remove_order node), mem_nodes_remove]
  split
  · next hkey =>
    refine iff_of_false ?_ nofun
    rintro ⟨⟨-, hne⟩, heq⟩
    exact hne (heq.trans hkey.symm)
  · next hkey =>
    rw [← mergedAt?_sort, mergedAt?_eq_some_iff s.sort_order]
    constructor
    · rintro ⟨⟨hother, -⟩, heq⟩
      exact ⟨hother, heq⟩
    · rintro ⟨hother, rfl⟩
      exact ⟨⟨hother, Ne.symm hkey⟩, rfl⟩

/-- Sorted, a set that was made at once has of each node its copies in one. -/
theorem mem_nodes_sort_ofList_iff :
    node ∈ (ofList nodes).sort.nodes ↔
      NodeRef.inOne? (nodes.filter (·.key = node.key)) = some node := by
  have hmerged : (ofList nodes).mergedAt? node.key =
      NodeRef.inOne? ([] ++ nodes.filter (·.key = node.key)) := mergedAt?_addAll rfl nodes
  rw [List.nil_append, ← mergedAt?_sort] at hmerged
  rw [← hmerged, mergedAt?_eq_some_iff (sort_order _), and_iff_left rfl]

/-- Of the nodes that are chosen by what they name, a node has all of its copies or none. -/
theorem filter_chosen_key (chosen : DocumentId × Nat → Bool) (nodes : List NodeRef)
    (key : DocumentId × Nat) :
    (nodes.filter (chosen ·.key)).filter (·.key = key) =
      if chosen key then nodes.filter (·.key = key) else [] := by
  rw [List.filter_filter]
  split
  · next hchosen =>
    refine List.filter_congr fun other _ => ?_
    by_cases hkey : other.key = key
    · rw [hkey, hchosen, Bool.and_true]
    · rw [decide_eq_false hkey, Bool.false_and]
  · next hchosen =>
    refine List.filter_eq_nil_iff.mpr fun other _ hboth => hchosen ?_
    obtain ⟨hkey, hother⟩ := Bool.and_eq_true_iff.mp hboth
    rwa [of_decide_eq_true hkey] at hother

/-- Nodes may be chosen by what they name before copies are merged, or after it. -/
theorem nodes_sort_ofList_filter (chosen : DocumentId × Nat → Bool) (nodes : List NodeRef) :
    (ofList (nodes.filter (chosen ·.key))).sort.nodes =
      (ofList nodes).sort.nodes.filter (chosen ·.key) := by
  have hordered (s : NodeSet) :
      s.sort.nodes.Pairwise fun a b => KeyBefore (fun _ => (· < ·)) a.key b.key :=
    pairwise_nodes_of_order_byId s.sort_order
  have hnodup (s : NodeSet) : s.sort.nodes.Nodup := .of_map _ s.nodup_keys_sort
  have hmem (node : NodeRef) : node ∈ (ofList (nodes.filter (chosen ·.key))).sort.nodes ↔
      node ∈ (ofList nodes).sort.nodes.filter (chosen ·.key) := by
    rw [mem_nodes_sort_ofList_iff, List.mem_filter, mem_nodes_sort_ofList_iff, filter_chosen_key]
    split
    · next hchosen => exact (and_iff_left hchosen).symm
    · next hchosen => exact iff_of_false nofun fun h => hchosen h.2
  exact List.Perm.eq_of_pairwise
    (fun a b _ _ hab hba => absurd hba (hab.asymm fun _ _ _ => Nat.lt_asymm)) (hordered _)
    ((hordered _).filter _)
    ((List.perm_ext_iff_of_nodup (hnodup _) ((hnodup _).filter _)).mpr hmem)

/-! ## Following the copies of a node -/

/-- The copies of a node that were added since it was last removed, after one more operation. -/
def Operation.copiesAfter (key : DocumentId × Nat) (copies : List NodeRef) :
    Operation → List NodeRef
  | .remove node => if node.key = key then [] else copies
  | operation => copies ++ operation.added.filter (·.key = key)

/-- The copies of a node that were added since it was last removed. -/
def copiesSince (key : DocumentId × Nat) (operations : List Operation) : List NodeRef :=
  operations.foldl (Operation.copiesAfter key) []

theorem mergedAt?_perform (h : s.mergedAt? key = NodeRef.inOne? copies)
    (hmarks : operation ≠ .setSelfAsContext) :
    (s.perform operation).mergedAt? key = NodeRef.inOne? (operation.copiesAfter key copies) := by
  have hasked (hchanges : operation.changes = false) :
      (s.perform operation).mergedAt? key = NodeRef.inOne? (copies ++ []) := by
    rw [← mergedAt?_sort, sort_perform_of_not_changes hchanges hmarks, mergedAt?_sort, h,
      List.append_nil]
  cases operation with
  | add node => exact mergedAt?_addAll h [node]
  | addAll nodes => exact mergedAt?_addAll h nodes
  | addSet other => exact mergedAt?_addAll h other.nodes
  | remove node =>
    show (s.remove node).2.mergedAt? key = _
    rw [mergedAt?_remove, Operation.copiesAfter]
    split
    · rfl
    · exact h
  | setSelfAsContext => exact absurd rfl hmarks
  | _ => exact hasked rfl

theorem mergedAt?_run {operations : List Operation}
    (hmarks : ∀ operation ∈ operations, operation ≠ .setSelfAsContext) (key : DocumentId × Nat) :
    (run operations).mergedAt? key = NodeRef.inOne? (copiesSince key operations) := by
  suffices ∀ (s : NodeSet) (copies : List NodeRef), s.mergedAt? key = NodeRef.inOne? copies →
      (operations.foldl perform s).mergedAt? key =
        NodeRef.inOne? (operations.foldl (Operation.copiesAfter key) copies) from this empty [] rfl
  induction operations with
  | nil => exact fun s copies h => h
  | cons operation operations ih =>
    obtain ⟨hfirst, hrest⟩ := List.forall_mem_cons.mp hmarks
    exact fun s copies h => ih hrest _ _ (mergedAt?_perform h hfirst)

/-- Copies collapse without loss: whenever it happens, in the end a set has of each node what
its copies since the last removal of it come to. -/
structure CollapsesCopies (operations : List Operation) : Prop where
  entries : ∀ key, (run operations).sort.nodes.filter (·.key = key) =
    (NodeRef.inOne? (copiesSince key operations)).toList
  entriesInDocumentOrder : ∀ key,
    (run operations).sortInDocumentOrder.nodes.filter (·.key = key) =
      (NodeRef.inOne? (copiesSince key operations)).toList
  get?_eq : ∀ doc id, ((run operations).get? doc id).1 =
    NodeRef.inOne? (copiesSince (doc, id) operations)
  settled : ∀ others : List Operation, (∀ operation ∈ others, operation ≠ .setSelfAsContext) →
    others.filter Operation.changes = operations.filter Operation.changes →
      (run others).sort = (run operations).sort ∧
        (run others).sortInDocumentOrder = (run operations).sortInDocumentOrder

/-- A list without copies has at most one entry of a node. -/
theorem filter_key_eq_toList {found : Option NodeRef} (hnodup : (nodes.map (·.key)).Nodup)
    (hfound : ∀ node, found = some node ↔ node ∈ nodes ∧ node.key = key) :
    nodes.filter (·.key = key) = found.toList := by
  cases found with
  | none =>
    refine List.filter_eq_nil_iff.mpr fun node hnode hkey => ?_
    cases (hfound node).mpr ⟨hnode, of_decide_eq_true hkey⟩
  | some node =>
    obtain ⟨hnode, rfl⟩ := (hfound node).mp rfl
    exact Partition.filter_eq_singleton hnodup hnode

/-- Copies collapse without loss after any operations but marking: a mark goes into the context of
every copy that is there, so it tells which copies were merged before. -/
theorem collapsesCopies (operations : List Operation)
    (hmarks : ∀ operation ∈ operations, operation ≠ .setSelfAsContext) :
    CollapsesCopies operations := by
  have hmerged (key : DocumentId × Nat) : (run operations).sort.mergedAt? key =
      NodeRef.inOne? (copiesSince key operations) := by
    rw [mergedAt?_sort, mergedAt?_run hmarks]
  have hnodup := (run operations).nodup_keys_sort
  have hfound (key : DocumentId × Nat) (node : NodeRef) :
      NodeRef.inOne? (copiesSince key operations) = some node ↔
        node ∈ (run operations).sort.nodes ∧ node.key = key := by
    rw [← hmerged, mergedAt?_eq_some_iff (run operations).sort_order]
  have hperm := (run operations).perm_nodes_sortInDocumentOrder
  refine ⟨fun key => filter_key_eq_toList hnodup (hfound key), fun key => ?_, fun doc id => ?_, ?_⟩
  · refine filter_key_eq_toList ((hperm.map _).nodup_iff.mpr hnodup) fun node => ?_
    rw [hfound, hperm.mem_iff]
  · exact (lookup?_eq_mergedAt? (run operations).sort_order doc id).trans (hmerged (doc, id))
  · intro others hothers hsame
    have hsort : (run others).sort = (run operations).sort := by
      rw [run, sort_foldl_perform others hothers rfl, hsame, run,
        ← sort_foldl_perform operations hmarks rfl]
    refine ⟨hsort, ?_⟩
    rw [← sortInDocumentOrder_sort, hsort, sortInDocumentOrder_sort]

/-- A reference to an element of a document with the binary numbering, reached from other nodes. -/
def reachedElement (id : Nat) (origins : List Nat) : NodeRef :=
  { doc := ⟨⟨1⟩, "", binary⟩, id, kind := .element, context := origins.map (⟨⟨1⟩, ·⟩) }

/-- Copies come and go, some of them merged at once and some of them late. -/
def reinserted : List Operation :=
  [.add (reachedElement 4 [1]), .add (reachedElement 4 [2]), .remove (reachedElement 4 []),
    .add (reachedElement 4 [6, 2]), .sort, .add (reachedElement 7 [3]), .getAt 0,
    .addAll [reachedElement 4 [2, 5], reachedElement 7 [3, 1]], .size, .sortInDocumentOrder,
    .add (reachedElement 4 [6, 1])]

theorem collapsesCopies_reinserted :
    (∀ operation ∈ reinserted, operation ≠ .setSelfAsContext) ∧ CollapsesCopies reinserted :=
  ⟨by simp [reinserted], collapsesCopies reinserted (by simp [reinserted])⟩

end NodeSet

end TreeAxes
