import TreeAxes.Proofs.NodeSet.Merging

/-!
# Beside a node

Siblings are looked up in the window of their parent and told apart by identifiers; what comes
before or after a node is found when both are lifted to one level. Nodes below one parent stand on
one level already, and there identifiers ascend in document order: so the siblings of a node are
what comes before or after it below its own parent. For joins this is `joinsSiblings`.
-/

namespace TreeAxes

namespace Numbering

open TreeAxes.Partition (liesOn)

variable {n : Numbering} {pivot id : Nat} {direction : Direction}

/-- Whether an identifier comes on one side of another in document order. -/
def ComesOn (n : Numbering) (direction : Direction) (pivot id : Nat) : Prop :=
  match direction with
  | .following => n.compareDocumentOrder pivot id = .lt
  | .preceding => n.compareDocumentOrder id pivot = .lt

theorem comesOn_iff_liesOn (hlevel : n.levelOf pivot = n.levelOf id) :
    n.ComesOn direction pivot id ↔ liesOn direction pivot id := by
  cases direction with
  | following =>
    rw [ComesOn, compareDocumentOrder_of_levelOf_eq hlevel, Nat.compare_eq_lt, liesOn,
      decide_eq_true_iff]
  | preceding =>
    rw [ComesOn, compareDocumentOrder_of_levelOf_eq hlevel.symm, Nat.compare_eq_lt, liesOn,
      decide_eq_true_iff]

/-- On one level, nothing is lifted. -/
theorem isBeyond_iff_liesOn (hlevel : n.levelOf pivot = n.levelOf id) :
    n.isBeyond direction pivot id ↔ liesOn direction pivot id := by
  rw [isBeyond_iff, liftTo_of_le (Nat.le_of_eq hlevel), liftTo_of_le (Nat.le_of_eq hlevel.symm)]

theorem Uses.parentOf_eq_noNode_iff (h : n.Uses id) : n.parentOf id = noNode ↔ id = rootNode := by
  constructor
  · intro hnone
    exact h.eq_rootNode (Nat.eq_zero_of_not_pos fun hpos => h.parentOf_ne_noNode_iff.mpr hpos hnone)
  · rintro rfl
    exact n.parentOf_rootNode

/-- Siblings come before or after a node, below its parent. -/
theorem relates_sibling_iff_comesOn (hpivot : n.Uses pivot) (hid : n.Uses id) :
    (Relation.sibling direction).Relates n pivot id ↔
      pivot ≠ rootNode ∧ n.parentOf id = n.parentOf pivot ∧ n.ComesOn direction pivot id := by
  rw [Relation.Relates, ne_eq, hpivot.parentOf_eq_noNode_iff]
  refine and_congr_right fun _ => and_congr_right fun hparent => ?_
  rw [comesOn_iff_liesOn (levelOf_eq_of_parentOf_eq hpivot hid hparent.symm)]

/-- Siblings are what lies beyond a node below its own parent. -/
theorem relates_sibling_iff_isBeyond (hpivot : n.Uses pivot) (hid : n.Uses id) :
    (Relation.sibling direction).Relates n pivot id ↔
      (Relation.beyond direction).Relates n pivot id ∧ n.parentOf id = n.parentOf pivot := by
  rw [Relation.Relates, Relation.Relates]
  constructor
  · rintro ⟨-, hparent, hside⟩
    have hlevel := levelOf_eq_of_parentOf_eq hpivot hid hparent.symm
    exact ⟨(isBeyond_iff_liesOn hlevel).mpr hside, hparent⟩
  · rintro ⟨hbeyond, hparent⟩
    have hlevel := levelOf_eq_of_parentOf_eq hpivot hid hparent.symm
    have hside := (isBeyond_iff_liesOn hlevel).mp hbeyond
    refine ⟨fun hnone => ?_, hparent, hside⟩
    -- Only the root has no parent, and nothing is on a side of itself.
    rw [hpivot.parentOf_eq_noNode_iff.mp hnone,
      hid.parentOf_eq_noNode_iff.mp (hparent.trans hnone)] at hside
    exact not_liesOn_self direction rootNode hside

end Numbering

namespace Partition

variable {p : Partition} {anchor : NodeRef} {direction : Direction}

theorem pairwise_siblings (h : p.nodes.Pairwise (·.id < ·.id)) (node : NodeRef)
    (direction : Direction) : (p.siblings node direction).Pairwise (·.id < ·.id) := by
  rw [siblings]
  split
  · exact List.Pairwise.nil
  · refine List.Pairwise.filter _ ?_
    rw [children]
    split
    · rw [range_eq (h.imp Nat.le_of_lt)]
      exact h.filter _
    · exact List.Pairwise.nil

/-- What is looked up beside a node by its parent is what lies beyond it below its parent. -/
theorem Ready.siblings_eq (h : p.Ready) (hdoc : anchor.doc.numbering = p.doc.numbering)
    (hanchor : p.doc.numbering.Uses anchor.id) (hkind : anchor.kind ≠ .attribute)
    (direction : Direction) :
    p.siblings anchor direction = (p.beyond anchor direction).filter fun node =>
      p.doc.numbering.parentOf node.id = p.doc.numbering.parentOf anchor.id := by
  refine eq_of_ascending (pairwise_siblings h.ascending anchor direction)
    ((h.ascending.filter _).filter _) fun node => ?_
  rw [mem_siblings_iff h hdoc hanchor, List.mem_filter, beyond, List.mem_filter, Bool.and_eq_true,
    decide_eq_true_iff, decide_eq_true_iff, and_assoc, and_assoc]
  refine and_congr_right fun hnode => and_congr (and_iff_right hkind) ?_
  exact Numbering.relates_sibling_iff_isBeyond hanchor (h.uses node hnode)

end Partition

namespace NodeSet

variable {numbering : DocumentId → Numbering} {s candidates context : NodeSet} {n : Numbering}
  {anchor node : NodeRef} {direction : Direction} {remember : Bool} {key : DocumentId × Nat}

theorem relatedTo_sibling_eq (h : s.NumberedIn anchor.doc.id n) (hsorted : s.order = .byId)
    (hanchor : n.Numbers anchor.id) (hdoc : anchor.doc.numbering = n)
    (hkind : anchor.kind ≠ .attribute) (direction : Direction) (remember : Bool) :
    s.relatedTo (.sibling direction) remember anchor =
      (s.relatedTo (.beyond direction) remember anchor).filter fun node =>
        n.parentOf node.id = n.parentOf anchor.id := by
  rw [relatedTo, relatedTo]
  cases hpart : s.part? anchor.doc.id with
  | none => rfl
  | some p =>
    obtain ⟨hp, hid⟩ := part?_eq_some_iff.mp hpart
    have hagrees := h.agrees p hp hid
    have huses : p.doc.numbering.Uses anchor.id := by
      rw [hagrees]
      exact Numbering.numbers_iff_uses.mp hanchor
    have hsiblings := (h.ready hsorted hp hid).siblings_eq (hdoc.trans hagrees.symm) huses hkind
      direction
    rw [hagrees] at hsiblings
    show (p.siblings anchor direction).map _ = ((p.beyond anchor direction).map _).filter _
    rw [hsiblings, List.filter_map]
    congr 1
    refine List.filter_congr fun node _ => ?_
    rw [Function.comp_apply, NodeRef.reachedFrom_id]

/-- A node beside a context node: not an attribute, below the same parent, and on one side of it
in document order. The root has nothing beside it, nor has an attribute. -/
structure StandsBeside (n : Numbering) (direction : Direction) (anchor node : NodeRef) :
    Prop where
  document : node.doc.id = anchor.doc.id
  anchor_kind : anchor.kind ≠ .attribute
  anchor_ne_root : anchor.id ≠ rootNode
  node_kind : node.kind ≠ .attribute
  parent : n.parentOf node.id = n.parentOf anchor.id
  side : n.ComesOn direction anchor.id node.id

/-- Joins beside nodes agree with the joins before and after them in document order. -/
structure JoinsSiblings (candidates context : NodeSet) (numbering : DocumentId → Numbering)
    (direction : Direction) (remember : Bool) : Prop where
  mem_iff : ∀ key, key ∈ (candidates.select context (.sibling direction) remember).1 ↔
    ∃ node ∈ candidates.sort.nodes, node.key = key ∧
      ∃ anchor ∈ context.nodes, StandsBeside (numbering anchor.doc.id) direction anchor node
  /-- Seen from one node, siblings are what lies beyond it below its parent, and they remember the
  same. -/
  nodes_eq : ∀ key, (∀ anchor ∈ context.nodes, anchor.key = key ∧ anchor.kind ≠ .attribute) →
    (candidates.select context (.sibling direction) remember).1.sort.nodes =
      (candidates.select context (.beyond direction) remember).1.sort.nodes.filter fun node =>
        (numbering key.1).parentOf node.id = (numbering key.1).parentOf key.2

section

variable (ha : candidates.NumberedBy numbering) (hb : context.NumberedBy numbering)
  (hown : ∀ anchor ∈ context.nodes, anchor.doc.numbering = numbering anchor.doc.id)

include ha hb hown

/-- Nodes are found beside a context node by their parent and their side in document order. -/
theorem mem_select_sibling_iff :
    key ∈ (candidates.select context (.sibling direction) remember).1 ↔
      ∃ node ∈ candidates.sort.nodes, node.key = key ∧
        ∃ anchor ∈ context.nodes,
          StandsBeside (numbering anchor.doc.id) direction anchor node := by
  rw [mem_select_iff numbering (fun anchor _ => ha anchor.doc.id)
    (fun anchor hanchor => (hb _).numbers anchor hanchor rfl) (.inr hown)]
  refine exists_congr fun node => and_congr_right fun hnode => and_congr_right fun _ =>
    exists_congr fun anchor => and_congr_right fun hanchor => ?_
  have huses : (numbering anchor.doc.id).Uses anchor.id :=
    Numbering.numbers_iff_uses.mp ((hb _).numbers anchor hanchor rfl)
  constructor
  · rintro ⟨hdoc, ⟨hanchorkind, hkind⟩, hrelates⟩
    have hid := Numbering.numbers_iff_uses.mp ((ha _).sort.numbers node hnode hdoc)
    obtain ⟨hroot, hparent, hside⟩ :=
      (Numbering.relates_sibling_iff_comesOn huses hid).mp hrelates
    exact ⟨hdoc, hanchorkind, hroot, hkind, hparent, hside⟩
  · rintro ⟨hdoc, hanchorkind, hroot, hkind, hparent, hside⟩
    have hid := Numbering.numbers_iff_uses.mp ((ha _).sort.numbers node hnode hdoc)
    exact ⟨hdoc, ⟨hanchorkind, hkind⟩,
      (Numbering.relates_sibling_iff_comesOn huses hid).mpr ⟨hroot, hparent, hside⟩⟩

/-- What is found beside one context node is chosen by keys from what lies beyond it, so that it
may be chosen before copies are merged. -/
theorem nodes_select_sibling_eq
    (hone : ∀ anchor ∈ context.nodes, anchor.key = key ∧ anchor.kind ≠ .attribute) :
    (candidates.select context (.sibling direction) remember).1.sort.nodes =
      (candidates.select context (.beyond direction) remember).1.sort.nodes.filter fun node =>
        (numbering key.1).parentOf node.id = (numbering key.1).parentOf key.2 := by
  have hchosen := nodes_sort_ofList_filter
    (fun other => (numbering key.1).parentOf other.2 = (numbering key.1).parentOf key.2)
    (context.nodes.flatMap (candidates.sort.relatedTo (.beyond direction) remember))
  refine Eq.trans (congrArg (fun nodes => (ofList nodes).sort.nodes) ?_) hchosen
  rw [List.filter_flatMap]
  refine List.flatMap_congr fun anchor hanchor => ?_
  obtain ⟨rfl, hkind⟩ := hone anchor hanchor
  exact relatedTo_sibling_eq (ha anchor.doc.id).sort candidates.sort_order
    ((hb _).numbers anchor hanchor rfl) (hown anchor hanchor) hkind direction remember

end

/-- The parent of a context node is computed by the document of its own reference, which is why this
one too has to have the numbering of the partitions. -/
theorem joinsSiblings (ha : candidates.NumberedBy numbering) (hb : context.NumberedBy numbering)
    (hown : ∀ anchor ∈ context.nodes, anchor.doc.numbering = numbering anchor.doc.id)
    (direction : Direction) (remember : Bool) :
    candidates.JoinsSiblings context numbering direction remember :=
  ⟨fun _ => mem_select_sibling_iff ha hb hown, fun _ => nodes_select_sibling_eq ha hb hown⟩

theorem numbering_of_mem_elements {keys : List (Nat × Nat)} :
    ∀ node ∈ (elements keys).nodes, node.doc.numbering = binary := by
  refine forall_mem_nodes_ofList (fun _ _ hcopy _ => hcopy) fun node hnode => ?_
  obtain ⟨key, -, rfl⟩ := List.mem_map.mp hnode
  rfl

theorem joinsSiblings_elements :
    (elements [(1, 7), (2, 5), (1, 5), (1, 2), (1, 6), (1, 5), (1, 3)]).JoinsSiblings
      (elements [(1, 4)]) (fun _ => binary) .following true :=
  joinsSiblings (numberedBy_elements (by decide)) (numberedBy_elements (by decide))
    numbering_of_mem_elements .following true

/-- A numbering that puts all nodes but the root below it. -/
def flat : Numbering where
  fanOut := [5]
  levels := #[⟨1, 1, 1⟩, ⟨2, 5, 5⟩]
  accepted := by decide
  tabulated := rfl

/-- Elements from two states of one document. Their partition keeps the numbering of the first. -/
def renumbered : NodeSet := ofList [.element ⟨⟨1⟩, "", binary⟩ 1, .element ⟨⟨1⟩, "", flat⟩ 4]

theorem numberedBy_renumbered : renumbered.NumberedBy fun _ => binary := by
  have hparts : renumbered.parts.map (·.doc) = [⟨⟨1⟩, "", binary⟩] := rfl
  have hids : renumbered.nodes.map (·.id) = [1, 4] := rfl
  refine fun doc => ⟨fun p hp _ => ?_, fun node hnode _ => ?_⟩
  · have hdoc : p.doc ∈ renumbered.parts.map (·.doc) := List.mem_map_of_mem hp
    rw [hparts, List.mem_singleton] at hdoc
    rw [hdoc]
  · have hid : node.id ∈ renumbered.nodes.map (·.id) := List.mem_map_of_mem hnode
    have hall : ∀ id ∈ [1, 4], binary.Numbers id := by decide
    exact hall node.id (hids ▸ hid)

/-- The nodes below node 2. -/
def belowTwo : NodeSet := elements [(1, 5), (1, 6)]

theorem numberedBy_belowTwo : belowTwo.NumberedBy fun _ => binary :=
  numberedBy_elements (by decide)

/-- They are sorted as they stand. -/
theorem parts_sort_belowTwo : belowTwo.sort.parts = belowTwo.parts :=
  parts_sort_of_ascending (by decide)

theorem nodes_sort_belowTwo : belowTwo.sort.nodes =
    [.element ⟨⟨1⟩, "", binary⟩ 5, .element ⟨⟨1⟩, "", binary⟩ 6] := by
  rw [nodes, parts_sort_belowTwo]
  rfl

/-- Node 1 has no parent. The parent of node 4 is looked up in the numbering of its own reference,
where it is the root, and below the root there is none of the candidates. -/
theorem select_renumbered :
    (belowTwo.select renumbered (.sibling .following) true).1 = ofList [] := by
  have hrelated : belowTwo.sort.relatedTo (.sibling .following) true =
      belowTwo.relatedTo (.sibling .following) true := by
    funext node
    rw [relatedTo, part?, parts_sort_belowTwo, ← part?, ← relatedTo]
  have hnone :
      renumbered.nodes.flatMap (belowTwo.relatedTo (.sibling .following) true) = [] :=
    List.isEmpty_iff.mp (by decide +kernel)
  rw [select, join, hrelated, hnone]

/-- Numberings of partitions are not enough: node 5 beside node 4 is missed. -/
theorem not_joinsSiblings_renumbered :
    belowTwo.NumberedBy (fun _ => binary) ∧ renumbered.NumberedBy (fun _ => binary) ∧
      ¬belowTwo.JoinsSiblings renumbered (fun _ => binary) .following true := by
  refine ⟨numberedBy_belowTwo, numberedBy_renumbered, ?_⟩
  intro h
  have hnode : .element ⟨⟨1⟩, "", binary⟩ 5 ∈ belowTwo.sort.nodes :=
    nodes_sort_belowTwo ▸ List.mem_cons_self
  have hcontext : renumbered.nodes =
      [.element ⟨⟨1⟩, "", binary⟩ 1, .element ⟨⟨1⟩, "", flat⟩ 4] := rfl
  have hanchor : .element ⟨⟨1⟩, "", flat⟩ 4 ∈ renumbered.nodes :=
    hcontext ▸ List.mem_cons_of_mem _ List.mem_cons_self
  have hside : binary.compareDocumentOrder 4 5 = .lt := by decide +kernel
  have hbeside : StandsBeside binary .following (.element ⟨⟨1⟩, "", flat⟩ 4)
      (.element ⟨⟨1⟩, "", binary⟩ 5) :=
    ⟨rfl, by decide, by decide, by decide, by decide +kernel, hside⟩
  have hfound := (h.mem_iff (⟨1⟩, 5)).mpr ⟨_, hnode, rfl, _, hanchor, hbeside⟩
  rw [select_renumbered] at hfound
  exact not_mem_empty _ hfound

end NodeSet

end TreeAxes
