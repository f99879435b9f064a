import TreeAxes.Proofs.NodeSet.Alike
import TreeAxes.Proofs.NodeSet.Related
import TreeAxes.Proofs.Numbering.Preorder

/-!
# What joins find

Children and descendants are looked up in windows, parents and ancestors on a climb, and each
context node adds what was looked up for it, copies included. For sets whose partitions agree on
the numbering of each document, a join is a relation all the same: it holds the candidates that
stand in the relation to some context node, and these remember what all such context nodes leave
with them.
-/

namespace TreeAxes

theorem NodeRef.mem_context_pushContext {node : NodeRef} {c k : ContextNode} :
    k ∈ (node.pushContext c).context ↔ k ∈ node.context ∨ k = c := by
  rw [pushContext]
  split
  · next hlast =>
    refine (or_iff_left_of_imp ?_).symm
    rintro rfl
    exact List.mem_of_getLast? hlast
  · exact List.mem_append.trans (or_congr_right List.mem_singleton)

/-- What a node remembers that was reached from another. -/
theorem NodeRef.mem_context_reachedFrom {node anchor : NodeRef} {remember : Bool}
    {k : ContextNode} :
    k ∈ (node.reachedFrom anchor remember).context ↔
      if remember then k ∈ node.context ∨ k = anchor.asContext else k ∈ anchor.context := by
  cases remember with
  | false => exact Iff.rfl
  | true =>
    rw [reachedFrom, if_pos rfl, if_pos rfl]
    exact mem_context_pushContext

namespace NodeSet

variable {numbering : DocumentId → Numbering} {s candidates context : NodeSet}
  {relation : Relation} {remember : Bool} {anchor found : NodeRef} {key : DocumentId × Nat}
  {k : ContextNode}

/-- Whether the partition of a document has a numbering that its nodes are in. -/
structure NumberedIn (s : NodeSet) (doc : DocumentId) (n : Numbering) : Prop where
  agrees : ∀ p ∈ s.parts, p.doc.id = doc → p.doc.numbering = n
  numbers : ∀ node ∈ s.nodes, node.doc.id = doc → n.Numbers node.id

/-- Whether all partitions of a set have the numberings of their documents. -/
def NumberedBy (s : NodeSet) (numbering : DocumentId → Numbering) : Prop :=
  ∀ doc, s.NumberedIn doc (numbering doc)

/-- Whether a join pairs a candidate with a context node of the same document. -/
def Paired (relation : Relation) (n : Numbering) (anchor candidate : NodeRef) : Prop :=
  candidate.doc.id = anchor.doc.id ∧ relation.Admits anchor.kind candidate.kind ∧
    relation.Relates n anchor.id candidate.id

theorem exists_part_of_mem_parts_sort {p : Partition} (hp : p ∈ s.sort.parts) :
    ∃ q ∈ s.parts, p.doc = q.doc := by
  rw [parts_sort] at hp
  obtain ⟨q, hq, rfl⟩ := List.mem_map.mp hp
  exact ⟨q, hq, rfl⟩

theorem nodup_keys_sort (s : NodeSet) : (s.sort.nodes.map (·.key)).Nodup :=
  nodup_keys (fun _ _ => Nat.ne_of_lt) (pairwise_nodes_of_order_byId s.sort_order)

/-- A node of a sorted set remembers what the set recalls of it. -/
theorem mem_context_sort_iff {node : NodeRef} {k : ContextNode} (h : node ∈ s.sort.nodes) :
    k ∈ node.context ↔ s.Recalls node.key k :=
  (mem_context_iff_recalls (nodup_keys_sort s) h).trans recalls_sort

/-- What a lookup gives for a context node is a candidate that was reached from it. -/
theorem exists_of_mem_relatedTo {ref : NodeRef}
    (h : ref ∈ candidates.relatedTo relation remember anchor) :
    ∃ candidate ∈ candidates.nodes, ref = candidate.reachedFrom anchor remember := by
  rw [relatedTo] at h
  split at h
  · next p hpart =>
    obtain ⟨candidate, hcandidate, rfl⟩ := List.mem_map.mp h
    exact ⟨candidate, mem_nodes_of_mem_part (part?_eq_some_iff.mp hpart).1
      (Partition.mem_nodes_of_mem_related hcandidate), rfl⟩
  · cases h

namespace NumberedIn

variable {doc : DocumentId} {n : Numbering} {node : NodeRef}

theorem sort (h : s.NumberedIn doc n) : s.sort.NumberedIn doc n := by
  constructor
  · intro p hp hid
    obtain ⟨q, hq, hdoc⟩ := exists_part_of_mem_parts_sort hp
    rw [hdoc] at hid ⊢
    exact h.agrees q hq hid
  · intro node hnode hid
    obtain ⟨copy, hcopy, hdoc, hcid, -⟩ := exists_same_of_mem_nodes_sort hnode
    rw [hdoc] at hid
    rw [hcid]
    exact h.numbers copy hcopy hid

theorem add (h : s.NumberedIn doc n)
    (hnode : node.doc.id = doc → node.doc.numbering = n ∧ n.Numbers node.id) :
    (s.add node).NumberedIn doc n := by
  constructor
  · show ∀ p ∈ Partition.insertNode node s.parts, _
    have hagrees := h.agrees
    obtain ⟨before, after, ⟨hparts, hinsert⟩ | ⟨q, hparts, -, hinsert⟩⟩ :=
      insertNode_cases node s.parts
    · rw [hparts, List.forall_mem_append] at hagrees
      rw [hinsert, List.forall_mem_append, List.forall_mem_cons]
      exact ⟨hagrees.1, fun hid => (hnode hid).1, hagrees.2⟩
    · rw [hparts] at hagrees
      rwa [hinsert, List.forall_mem_append, List.forall_mem_cons] at *
  · have hnumbers := h.numbers
    obtain ⟨before, after, ⟨hs, hadd⟩ | ⟨copy, hs, -, hadd⟩⟩ := s.nodes_add_cases node
    · rw [hs, List.forall_mem_append] at hnumbers
      rw [hadd, List.forall_mem_append, List.forall_mem_cons]
      exact ⟨hnumbers.1, fun hid => (hnode hid).2, hnumbers.2⟩
    · rw [hs] at hnumbers
      rwa [hadd, List.forall_mem_append, List.forall_mem_cons] at *

/-- A sorted partition of numbered nodes is ready for lookups. -/
theorem ready (h : s.NumberedIn doc n) (hsorted : s.order = .byId) {p : Partition}
    (hp : p ∈ s.parts) (hid : p.doc.id = doc) : p.Ready := by
  refine ⟨pairwise_nodes_of_byId hsorted p hp, fun node hnode => ?_⟩
  rw [h.agrees p hp hid]
  have hdoc := ((s.owned p hp).2 node hnode).trans hid
  exact Numbering.numbers_iff_uses.mp (h.numbers node (mem_nodes_of_mem_part hp hnode) hdoc)

/-- What a sorted set holds in a relation to one node. -/
theorem mem_relatedTo_iff (h : s.NumberedIn anchor.doc.id n) (hsorted : s.order = .byId)
    (hanchor : n.Numbers anchor.id) (hdoc : relation.looksBack ∨ anchor.doc.numbering = n) :
    found ∈ s.relatedTo relation remember anchor ↔
      ∃ node ∈ s.nodes, Paired relation n anchor node ∧
        node.reachedFrom anchor remember = found := by
  rw [relatedTo]
  cases hpart : s.part? anchor.doc.id with
  | none =>
    refine iff_of_false List.not_mem_nil ?_
    rintro ⟨node, hnode, ⟨hid, -⟩, -⟩
    obtain ⟨p, hp, -⟩ := mem_nodes_iff_part?.mp ⟨hnode, hid⟩
    rw [hpart] at hp
    cases hp
  | some p =>
    obtain ⟨hp, hid⟩ := part?_eq_some_iff.mp hpart
    have hagrees := h.agrees p hp hid
    have huses : p.doc.numbering.Uses anchor.id := by
      rw [hagrees]
      exact Numbering.numbers_iff_uses.mp hanchor
    have hmem (node : NodeRef) :
        node ∈ s.nodes ∧ node.doc.id = anchor.doc.id ↔ node ∈ p.nodes := by
      simp only [mem_nodes_iff_part?, hpart, Option.some_inj, exists_eq_left']
    refine List.mem_map.trans (exists_congr fun node => ?_)
    rw [Partition.mem_related_iff (h.ready hsorted hp hid)
      (hdoc.imp_right (·.trans hagrees.symm)) huses, hagrees, ← hmem, Paired]
    simp only [and_assoc]

end NumberedIn

theorem numberedIn_ofList {nodes : List NodeRef} {doc : DocumentId} {n : Numbering}
    (h : ∀ node ∈ nodes, node.doc.id = doc → node.doc.numbering = n ∧ n.Numbers node.id) :
    (ofList nodes).NumberedIn doc n := by
  have hempty : empty.NumberedIn doc n := ⟨nofun, nofun⟩
  rw [ofList, addAll]
  exact List.foldlRecOn nodes add (motive := (·.NumberedIn doc n)) hempty
    fun s hs node hnode => hs.add (h node hnode)

/-! ## Joins -/

section

variable (numbering)
  (ha : ∀ anchor ∈ context.nodes,
    candidates.NumberedIn anchor.doc.id (numbering anchor.doc.id))
  (hb : ∀ anchor ∈ context.nodes, (numbering anchor.doc.id).Numbers anchor.id)
  (hdoc : relation.looksBack ∨
    ∀ anchor ∈ context.nodes, anchor.doc.numbering = numbering anchor.doc.id)

include ha hb hdoc

theorem mem_flatMap_relatedTo_iff :
    found ∈ context.nodes.flatMap (candidates.sort.relatedTo relation remember) ↔
      ∃ anchor ∈ context.nodes, ∃ node ∈ candidates.sort.nodes,
        Paired relation (numbering anchor.doc.id) anchor node ∧
          node.reachedFrom anchor remember = found := by
  refine List.mem_flatMap.trans (exists_congr fun anchor => and_congr_right fun hanchor => ?_)
  exact (ha anchor hanchor).sort.mem_relatedTo_iff candidates.sort_order (hb anchor hanchor)
    (hdoc.imp_right (· anchor hanchor))

/-- A join finds the candidates that stand in the relation to a context node. -/
theorem mem_select_iff :
    key ∈ (candidates.select context relation remember).1 ↔
      ∃ node ∈ candidates.sort.nodes, node.key = key ∧
        ∃ anchor ∈ context.nodes, Paired relation (numbering anchor.doc.id) anchor node := by
  show key ∈ ofList _ ↔ _
  simp only [mem_ofList, mem_flatMap_relatedTo_iff numbering ha hb hdoc]
  constructor
  · rintro ⟨_, ⟨anchor, hanchor, node, hnode, hpaired, rfl⟩, rfl⟩
    refine ⟨node, hnode, ?_, anchor, hanchor, hpaired⟩
    simp [NodeRef.key]
  · rintro ⟨node, hnode, rfl, anchor, hanchor, hpaired⟩
    refine ⟨_, ⟨anchor, hanchor, node, hnode, hpaired, rfl⟩, ?_⟩
    simp [NodeRef.key]

/-- What a join recalls of a candidate, from all context nodes that it was found for. -/
theorem recalls_select_iff :
    (candidates.select context relation remember).1.Recalls key k ↔
      ∃ node ∈ candidates.sort.nodes, node.key = key ∧
        ∃ anchor ∈ context.nodes, Paired relation (numbering anchor.doc.id) anchor node ∧
          k ∈ (node.reachedFrom anchor remember).context := by
  refine recalls_ofList.trans ?_
  simp only [mem_flatMap_relatedTo_iff numbering ha hb hdoc]
  constructor
  · rintro ⟨_, ⟨anchor, hanchor, node, hnode, hpaired, rfl⟩, rfl, hk⟩
    refine ⟨node, hnode, ?_, anchor, hanchor, hpaired, hk⟩
    simp [NodeRef.key]
  · rintro ⟨node, hnode, rfl, anchor, hanchor, hpaired, hk⟩
    refine ⟨_, ⟨anchor, hanchor, node, hnode, hpaired, rfl⟩, ?_, hk⟩
    simp [NodeRef.key]

end

/-! ## The vertical joins -/

/-- Whether a context node is related to the node of a key, by the numbering of their document. -/
def Linked (numbering : DocumentId → Numbering) (related : Numbering → Nat → Nat → Prop)
    (anchor : NodeRef) (key : DocumentId × Nat) : Prop :=
  anchor.doc.id = key.1 ∧ related (numbering key.1) anchor.id key.2

/-- A join as a relation between the identifiers of context nodes and candidates. -/
structure Joins (candidates context found : NodeSet) (numbering : DocumentId → Numbering)
    (remember : Bool) (related : Numbering → Nat → Nat → Prop) : Prop where
  mem_iff : ∀ key, key ∈ found ↔
    key ∈ candidates ∧ ∃ anchor ∈ context.nodes, Linked numbering related anchor key
  /-- Sorted, the nodes that were found are distinct. -/
  nodup : (found.sort.nodes.map (·.key)).Nodup
  mem_context_iff : ∀ node ∈ found.sort.nodes, ∀ k, k ∈ node.context ↔
    if remember then
      candidates.Recalls node.key k ∨
        ∃ anchor ∈ context.nodes, Linked numbering related anchor node.key ∧ k = anchor.asContext
    else ∃ anchor ∈ context.nodes, Linked numbering related anchor node.key ∧ k ∈ anchor.context

/-- What the joins up and down the tree find. -/
structure JoinsVertically (candidates context : NodeSet) (numbering : DocumentId → Numbering)
    (remember : Bool) : Prop where
  children : candidates.Joins context (candidates.select context .child remember).1 numbering
    remember fun n anchor id => n.parentOf id = anchor
  parents : candidates.Joins context (candidates.select context .parent remember).1 numbering
    remember fun n anchor id => n.parentOf anchor = id
  descendants : ∀ includeSelf : Bool, candidates.Joins context
    (candidates.select context (.descendant includeSelf) remember).1 numbering remember
    fun n anchor id => n.Above anchor id ∨ includeSelf ∧ id = anchor
  ancestors : ∀ includeSelf : Bool, candidates.Joins context
    (candidates.select context (.ancestor includeSelf) remember).1 numbering remember
    fun n anchor id => n.Above id anchor ∨ includeSelf ∧ id = anchor

section

variable {related : Numbering → Nat → Nat → Prop} {node candidate : NodeRef}
  (ha : candidates.NumberedBy numbering) (hb : context.NumberedBy numbering)
  (hback : relation.looksBack)
  (hrelated : ∀ {n : Numbering} {anchor id}, n.Numbers anchor → n.Numbers id →
    (relation.Relates n anchor id ↔ related n anchor id))

include ha hb hback hrelated

/-- A relation that looks back does not ask for kinds, so keys tell what it pairs. -/
theorem paired_iff_linked (hanchor : anchor ∈ context.nodes)
    (hnode : node ∈ candidates.sort.nodes) :
    Paired relation (numbering anchor.doc.id) anchor node ↔
      Linked numbering related anchor node.key := by
  rw [Paired, and_iff_right (Relation.admits_of_looksBack hback _ _), eq_comm]
  refine and_congr_right fun hid => ?_
  rw [hid]
  exact hrelated ((hb _).numbers anchor hanchor hid) ((ha _).sort.numbers node hnode rfl)

theorem mem_select_iff_linked (key : DocumentId × Nat) :
    key ∈ (candidates.select context relation remember).1 ↔
      key ∈ candidates ∧ ∃ anchor ∈ context.nodes, Linked numbering related anchor key := by
  rw [mem_select_iff numbering (fun anchor _ => ha anchor.doc.id)
    (fun anchor hanchor => (hb _).numbers anchor hanchor rfl) (.inl hback), ← mem_sort,
    mem_iff_exists_node]
  constructor
  · rintro ⟨node, hnode, rfl, anchor, hanchor, hpaired⟩
    have hlink := (paired_iff_linked ha hb hback hrelated hanchor hnode).mp hpaired
    exact ⟨⟨node, hnode, rfl⟩, anchor, hanchor, hlink⟩
  · rintro ⟨⟨node, hnode, rfl⟩, anchor, hanchor, hlink⟩
    have hpaired := (paired_iff_linked ha hb hback hrelated hanchor hnode).mpr hlink
    exact ⟨node, hnode, rfl, anchor, hanchor, hpaired⟩

/-- Sorted candidates have no copies: one node is reached from all the context nodes. -/
theorem mem_context_select_iff
    (hnode : node ∈ (candidates.select context relation remember).1.sort.nodes)
    (hcandidate : candidate ∈ candidates.sort.nodes) (hsame : candidate.key = node.key) :
    k ∈ node.context ↔ ∃ anchor ∈ context.nodes, Linked numbering related anchor node.key ∧
      k ∈ (candidate.reachedFrom anchor remember).context := by
  rw [mem_context_sort_iff hnode, recalls_select_iff numbering (fun anchor _ => ha anchor.doc.id)
      (fun anchor hanchor => (hb _).numbers anchor hanchor rfl) (.inl hback), ← hsame]
  constructor
  · rintro ⟨other, hother, hkey, anchor, hanchor, hpaired, hk⟩
    obtain rfl : other = candidate :=
      List.inj_on_of_nodup_map (nodup_keys_sort candidates) hother hcandidate hkey
    exact ⟨anchor, hanchor, (paired_iff_linked ha hb hback hrelated hanchor hother).mp hpaired, hk⟩
  · rintro ⟨anchor, hanchor, hlink, hk⟩
    have hpaired := (paired_iff_linked ha hb hback hrelated hanchor hcandidate).mpr hlink
    exact ⟨candidate, hcandidate, rfl, anchor, hanchor, hpaired, hk⟩

theorem NumberedBy.joins :
    candidates.Joins context (candidates.select context relation remember).1 numbering remember
      related := by
  refine ⟨mem_select_iff_linked ha hb hback hrelated, nodup_keys_sort _, fun node hnode k => ?_⟩
  have hfound := mem_sort.mp (mem_iff_exists_node.mpr ⟨node, hnode, rfl⟩)
  obtain ⟨hcandidate, first, hfirst, hfirstlink⟩ :=
    (mem_select_iff_linked ha hb hback hrelated node.key).mp hfound
  obtain ⟨candidate, hcandidate, hsame⟩ := mem_iff_exists_node.mp (mem_sort.mpr hcandidate)
  have hcontext : k ∈ candidate.context ↔ candidates.Recalls node.key k := by
    rw [mem_context_sort_iff hcandidate, hsame]
  simp only [mem_context_select_iff ha hb hback hrelated hnode hcandidate hsame,
    NodeRef.mem_context_reachedFrom, hcontext]
  cases remember with
  | false => exact Iff.rfl
  | true =>
    simp only [if_true]
    constructor
    · rintro ⟨anchor, hanchor, hlink, hk | rfl⟩
      · exact .inl hk
      · exact .inr ⟨anchor, hanchor, hlink, rfl⟩
    · rintro (hk | ⟨anchor, hanchor, hlink, rfl⟩)
      · exact ⟨first, hfirst, hfirstlink, .inl hk⟩
      · exact ⟨anchor, hanchor, hlink, .inr rfl⟩

end

theorem joinsVertically (ha : candidates.NumberedBy numbering)
    (hb : context.NumberedBy numbering) (remember : Bool) :
    candidates.JoinsVertically context numbering remember where
  children := ha.joins hb rfl fun _ _ => Iff.rfl
  parents := ha.joins hb rfl fun _ _ => Iff.rfl
  descendants includeSelf := ha.joins hb rfl fun _ hid => by
    rw [Relation.Relates, Numbering.isAncestor_iff_above (Numbering.numbers_iff_uses.mp hid)]
    exact or_comm
  ancestors includeSelf := ha.joins hb rfl fun hanchor _ => by
    rw [Relation.Relates, Numbering.isAncestor_iff_above (Numbering.numbers_iff_uses.mp hanchor)]
    exact or_comm

/-- The numbering of a binary tree of three levels. -/
def binary : Numbering where
  fanOut := [2, 2]
  levels := #[⟨1, 1, 1⟩, ⟨2, 2, 2⟩, ⟨4, 4, 2⟩]
  accepted := by decide
  tabulated := rfl

/-- Elements of documents that share the binary numbering, in the order of their addition. -/
def elements (keys : List (Nat × Nat)) : NodeSet :=
  ofList (keys.map fun key => .element ⟨⟨key.1⟩, "", binary⟩ key.2)

theorem numberedBy_elements {keys : List (Nat × Nat)} (h : ∀ key ∈ keys, binary.Numbers key.2) :
    (elements keys).NumberedBy fun _ => binary := by
  refine fun doc => numberedIn_ofList fun node hnode _ => ?_
  obtain ⟨key, hkey, rfl⟩ := List.mem_map.mp hnode
  exact ⟨rfl, h key hkey⟩

theorem joinsVertically_elements :
    (elements [(1, 4), (2, 7), (1, 2), (1, 4), (1, 1)]).JoinsVertically
      (elements [(2, 1), (1, 2), (1, 1), (1, 2)]) (fun _ => binary) true :=
  joinsVertically (numberedBy_elements (by decide)) (numberedBy_elements (by decide)) true

end NodeSet

end TreeAxes
