import TreeAxes.Proofs.NodeSet.Levels
import TreeAxes.Proofs.Step.Reach

/-!
# What a selector selects

A selector decides whether it accepts a candidate without listing the anchors: it stops at the
first one that it meets on a climb or below the candidate. It selects a candidate by all of its
anchors. Both come to the same for any identifier, and for numbered ones to the relation that the
selector stands for. A selector that remembers adds the anchors to what the candidate remembers,
nearest level first.
-/

namespace TreeAxes

namespace Selector

variable {relation : Relation} {p : Partition} {id : Nat}

/-- A partition is accepted from exactly if it has an anchor. -/
theorem acceptsIn_iff (relation : Relation) (p : Partition) (id : Nat) :
    acceptsIn relation p id ↔ anchorsIn relation p id ≠ [] := by
  have hfound (found : Option NodeRef) : found.isSome ↔ found.toList ≠ [] := by
    cases found with
    | none => simp
    | some node => simp
  cases relation with
  | child => exact hfound _
  | descendant includeSelf =>
    rw [acceptsIn, anchorsIn, Partition.nearest_eq_head?_ancestors, List.isSome_head?]
  | parent =>
    rw [acceptsIn, anchorsIn]
    simp
  | ancestor includeSelf =>
    have hbelow := p.hasDescendant_iff_ne_nil id
    rw [Partition.descendants, if_neg Bool.false_ne_true, List.nil_append] at hbelow
    rw [acceptsIn, anchorsIn, Partition.descendants, Bool.or_eq_true, hbelow]
    cases includeSelf with
    | false => simp
    | true => simp [Partition.contains, hfound, or_iff_not_imp_left]
  | self => exact hfound _
  | sibling | beyond => simp [acceptsIn, anchorsIn]

theorem accepts_iff_anchors (s : Selector) (candidate : NodeRef) :
    s.accepts candidate ↔ s.anchors candidate ≠ [] := by
  rw [accepts, anchors]
  cases s.context.part? candidate.doc.id with
  | none => simp
  | some p => exact acceptsIn_iff s.relation p candidate.id

theorem isSome_select?_iff (s : Selector) (candidate : NodeRef) :
    (s.select? candidate).isSome ↔ s.anchors candidate ≠ [] := by
  rw [Option.isSome_iff_exists, exists_select?_iff]
  constructor
  · rintro ⟨anchor, hanchor⟩
    exact List.ne_nil_of_mem hanchor
  · exact List.exists_mem_of_ne_nil _

end Selector

/-! ## The relation of a selector -/

/-- How many levels lie between two identifiers. -/
def Numbering.levelsApart (n : Numbering) (a b : Nat) : Nat :=
  max (n.levelOf a) (n.levelOf b) - min (n.levelOf a) (n.levelOf b)

/-- Whether a node is an anchor of another one. -/
def Relation.IsAnchor (relation : Relation) (n : Numbering) (anchor id : Nat) : Prop :=
  match relation with
  | .child => n.parentOf id = anchor
  | .descendant includeSelf => n.Above anchor id ∨ includeSelf ∧ anchor = id
  | .parent => n.parentOf anchor = id
  | .ancestor includeSelf => n.Above id anchor ∨ includeSelf ∧ anchor = id
  | .self => anchor = id
  | .sibling _ | .beyond _ => False

namespace Relation

variable {relation : Relation} {n : Numbering} {anchor a b id : Nat}

theorem relates_iff_isAnchor (hback : relation.looksBack) (hanchor : n.Uses anchor)
    (hid : n.Uses id) : relation.Relates n anchor id ↔ relation.IsAnchor n anchor id := by
  cases relation with
  | child | parent => exact Iff.rfl
  | descendant includeSelf =>
    rw [Relates, IsAnchor, Numbering.isAncestor_iff_above hid, or_comm, eq_comm (a := id)]
  | ancestor includeSelf =>
    rw [Relates, IsAnchor, Numbering.isAncestor_iff_above hanchor, or_comm, eq_comm (a := id)]
  | self => exact eq_comm
  | sibling | beyond => cases hback

/-- What comes first among anchors does not stand on a level that is farther away. -/
theorem levelsApart_le (ha : n.Uses a) (hb : n.Uses b) (hid : n.Uses id)
    (hanchora : relation.IsAnchor n a id) (hanchorb : relation.IsAnchor n b id)
    (hnearer : relation.Nearer a b) : n.levelsApart a id ≤ n.levelsApart b id := by
  have hlevel {x y : Nat} {includeSelf : Bool} (hy : n.Uses y)
      (h : n.Above x y ∨ includeSelf ∧ x = y) : n.levelOf x ≤ n.levelOf y := by
    obtain habove | ⟨-, rfl⟩ := h
    · have hancestor := (Numbering.isAncestor_iff_above hy).mpr habove
      exact Nat.le_of_lt (Numbering.isAncestor_iff.mp hancestor).1
    · exact Nat.le_refl _
  rw [Numbering.levelsApart, Numbering.levelsApart]
  cases relation with
  | child => exact absurd (hanchora.symm.trans hanchorb) hnearer.ne
  | self => exact absurd (hanchora.trans hanchorb.symm) hnearer.ne
  | parent => rw [Numbering.levelOf_eq_of_parentOf_eq ha hb (hanchora.trans hanchorb.symm)]
  | descendant includeSelf =>
    -- on the climb, levels fall
    have hfall := Numbering.levelOf_le_levelOf (n := n) hb.ne_noNode (Nat.le_of_lt hnearer)
    have habove := hlevel hid hanchora
    omega
  | ancestor includeSelf =>
    -- below the candidate, levels rise
    have hrise := Numbering.levelOf_le_levelOf (n := n) ha.ne_noNode (Nat.le_of_lt hnearer)
    have hbelow := hlevel ha (hanchora.imp_right fun hself => ⟨hself.1, hself.2.symm⟩)
    omega
  | sibling | beyond => exact hanchora.elim

end Relation

/-! ## The main statement -/

namespace Selector

variable {relation : Relation} {context : NodeSet} {remember : Bool} {candidate anchor : NodeRef}

/-- Whether a context node anchors a candidate of the same document. -/
def Anchored (relation : Relation) (candidate anchor : NodeRef) : Prop :=
  anchor.doc.id = candidate.doc.id ∧
    relation.IsAnchor candidate.doc.numbering anchor.id candidate.id

/-- The context nodes that anchor a candidate, each listed once, nearest level first. -/
structure ListsAnchors (relation : Relation) (context : NodeSet) (candidate : NodeRef)
    (anchors : List ContextNode) : Prop where
  nodup : anchors.Nodup
  mem_iff : ∀ c, c ∈ anchors ↔
    ∃ anchor ∈ context.nodes, Anchored relation candidate anchor ∧ anchor.asContext = c
  nearestFirst : anchors.Pairwise fun a b =>
    candidate.doc.numbering.levelsApart a.id candidate.id ≤
      candidate.doc.numbering.levelsApart b.id candidate.id

section

variable (h : context.NumberedIn candidate.doc.id candidate.doc.numbering)
  (hid : candidate.doc.numbering.Numbers candidate.id)

include h hid

/-- What is looked up from a numbered candidate is its anchors, in the order of nearness. -/
theorem anchors_spec (relation : Relation) (remember : Bool) :
    ((ofContext relation context remember).anchors candidate).Pairwise
        (fun a b => relation.Nearer a.id b.id) ∧
      ∀ anchor, anchor ∈ (ofContext relation context remember).anchors candidate ↔
        anchor ∈ context.sort.nodes ∧ Anchored relation candidate anchor := by
  have huses := Numbering.numbers_iff_uses.mp hid
  simp only [Anchored, ← and_assoc, NodeSet.mem_nodes_iff_part?]
  rw [anchors_ofContext]
  cases hpart : context.sort.part? candidate.doc.id with
  | none => exact ⟨.nil, by simp⟩
  | some p =>
    obtain ⟨hp, hdoc⟩ := NodeSet.part?_eq_some_iff.mp hpart
    have hagrees := h.sort.agrees p hp hdoc
    have hready := h.sort.ready context.sort_order hp hdoc
    rw [← hagrees] at huses
    refine ⟨pairwise_anchorsIn hready huses relation, fun anchor => ?_⟩
    simp only [Option.some_inj, exists_eq_left']
    cases hback : relation.looksBack with
    | true =>
      rw [Option.elim_some, mem_anchorsIn_iff hready huses hback, ← hagrees]
      exact and_congr_right fun hanchor =>
        relation.relates_iff_isAnchor hback (hready.uses anchor hanchor) huses
    | false =>
      cases relation with
      | sibling | beyond => simp [anchorsIn, Relation.IsAnchor]
      | _ => cases hback

theorem listsAnchors (relation : Relation) (remember : Bool) :
    ListsAnchors relation context candidate
      (((ofContext relation context remember).anchors candidate).map (·.asContext)) := by
  obtain ⟨hnearer, hmem⟩ := anchors_spec h hid relation remember
  refine ⟨?_, fun c => ?_, ?_⟩
  · exact List.pairwise_map.mpr (hnearer.imp fun hab heq => hab.ne (congrArg ContextNode.id heq))
  · simp only [List.mem_map, hmem]
    constructor
    · rintro ⟨anchor, ⟨hanchor, hanchored⟩, rfl⟩
      obtain ⟨copy, hcopy, hdoc, hcid, -⟩ := NodeSet.exists_same_of_mem_nodes_sort hanchor
      rw [Anchored, hdoc, hcid] at hanchored
      exact ⟨copy, hcopy, hanchored, by rw [NodeRef.asContext, NodeRef.asContext, hdoc, hcid]⟩
    · rintro ⟨copy, hcopy, hanchored, rfl⟩
      obtain ⟨anchor, hanchor, hkey⟩ := NodeSet.mem_iff_exists_node.mp
        (NodeSet.mem_sort.mpr (NodeSet.mem_iff_exists_node.mpr ⟨copy, hcopy, rfl⟩))
      obtain ⟨hdoc, hcid⟩ := Prod.ext_iff.mp hkey
      have hdoc : anchor.doc.id = copy.doc.id := hdoc
      have hcid : anchor.id = copy.id := hcid
      refine ⟨anchor, ⟨hanchor, ?_⟩, by rw [NodeRef.asContext, NodeRef.asContext, hdoc, hcid]⟩
      rwa [Anchored, hdoc, hcid]
  · refine List.pairwise_map.mpr (hnearer.imp_of_mem fun {a b} ha hb hab => ?_)
    obtain ⟨ha, hadoc, haanchor⟩ := (hmem a).mp ha
    obtain ⟨hb, hbdoc, hbanchor⟩ := (hmem b).mp hb
    exact Relation.levelsApart_le (Numbering.numbers_iff_uses.mp (h.sort.numbers a ha hadoc))
      (Numbering.numbers_iff_uses.mp (h.sort.numbers b hb hbdoc))
      (Numbering.numbers_iff_uses.mp hid) haanchor hbanchor hab

end

/-- What selecting a candidate comes to. -/
structure SelectsAnchored (relation : Relation) (context : NodeSet) (remember : Bool)
    (candidate : NodeRef) : Prop where
  isSome_iff : ((ofContext relation context remember).select? candidate).isSome ↔
    ∃ anchor ∈ context.nodes, Anchored relation candidate anchor
  /-- All anchors are remembered, unless the first one was remembered last already. -/
  remembers : remember → ∀ ref, (ofContext relation context remember).select? candidate = some ref →
    ∃ anchors, ListsAnchors relation context candidate anchors ∧
      ref = { candidate with
        context := candidate.context ++
          if candidate.context.getLast? = anchors.head? then anchors.tail else anchors }

theorem selectsAnchored_of_numbered
    (h : context.NumberedIn candidate.doc.id candidate.doc.numbering)
    (hid : candidate.doc.numbering.Numbers candidate.id) :
    SelectsAnchored relation context remember candidate where
  isSome_iff := by
    have hlists := listsAnchors h hid relation remember
    rw [isSome_select?_iff]
    constructor
    · intro hsome
      obtain ⟨found, hfound⟩ := List.exists_mem_of_ne_nil _ hsome
      obtain ⟨anchor, hanchor, hanchored, -⟩ :=
        (hlists.mem_iff found.asContext).mp (List.mem_map_of_mem hfound)
      exact ⟨anchor, hanchor, hanchored⟩
    · rintro ⟨anchor, hanchor, hanchored⟩ hnone
      have hmem := (hlists.mem_iff anchor.asContext).mpr ⟨anchor, hanchor, hanchored, rfl⟩
      rw [hnone] at hmem
      cases hmem
  remembers := by
    rintro rfl ref hselect
    have hlists := listsAnchors h hid relation true
    refine ⟨_, hlists, ?_⟩
    have hnodup := hlists.nodup
    rw [select?] at hselect
    split at hselect
    · cases hselect
    · next first rest hanchors =>
      rw [hanchors, List.map_cons] at hnodup ⊢
      have hremember : (ofContext relation context true).remember := rfl
      rw [if_pos hremember, Option.some_inj, List.map_cons] at hselect
      have hcontext := NodeRef.context_pushContexts_cons candidate hnodup
      rw [hselect] at hcontext
      rw [List.head?_cons, List.tail_cons, ← hcontext, ← hselect]
      rfl

/-- A candidate is accepted exactly if it is selected, whatever its identifier and the set; among
numbered nodes of one document, exactly if it has an anchor. -/
theorem selectsAnchored (relation : Relation) (context : NodeSet) (remember : Bool)
    (candidate : NodeRef) :
    ((ofContext relation context remember).accepts candidate ↔
        ((ofContext relation context remember).select? candidate).isSome) ∧
      (context.NumberedIn candidate.doc.id candidate.doc.numbering →
        candidate.doc.numbering.Numbers candidate.id →
          SelectsAnchored relation context remember candidate) :=
  ⟨(accepts_iff_anchors _ _).trans (isSome_select?_iff _ _).symm, selectsAnchored_of_numbered⟩

/-- A leaf of the binary tree that was reached from its parent already. -/
def reachedLeaf : NodeRef :=
  { doc := ⟨⟨1⟩, "", NodeSet.binary⟩, id := 4, kind := .element, context := [⟨⟨1⟩, 2⟩] }

theorem selectsAnchored_reachedLeaf :
    SelectsAnchored (.descendant true)
      (NodeSet.elements [(1, 1), (2, 2), (1, 7), (1, 2), (1, 1)]) true reachedLeaf :=
  (selectsAnchored _ _ true reachedLeaf).2
    (NodeSet.numberedBy_elements (by decide) ⟨1⟩) (by decide)

end Selector

end TreeAxes
