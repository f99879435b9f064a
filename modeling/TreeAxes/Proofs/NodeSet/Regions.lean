import TreeAxes.Proofs.NodeSet.Joins

/-!
# Regions of a document

Seen from one of its nodes, a document falls into five regions: the node, what stands above it
and below it, and what comes after and before it. Each is looked up in another way, by a climb, in
blocks of levels or by document order; together they hold every node once that is not an
attribute.
-/

namespace TreeAxes

/-- Where a node stands, seen from a pivot. -/
inductive Region where
  | here
  | above
  | below
  | after
  | before
deriving DecidableEq, Repr

/-- How to look for the nodes of a region. -/
def Region.relation : Region → Relation
  | here => .self
  | above => .ancestor false
  | below => .descendant false
  | after => .beyond .following
  | before => .beyond .preceding

namespace Numbering

variable {n : Numbering} {pivot id : Nat}

/-- The region of an identifier: document order tells its side, and ancestry the rest. -/
def regionOf (n : Numbering) (pivot id : Nat) : Region :=
  match n.compareDocumentOrder pivot id with
  | .eq => .here
  | .lt => if n.isAncestor pivot id then .below else .after
  | .gt => if n.isAncestor id pivot then .above else .before

theorem compareDocumentOrder_eq_gt_iff :
    n.compareDocumentOrder pivot id = .gt ↔ n.compareDocumentOrder id pivot = .lt := by
  have hswap : n.compareDocumentOrder pivot id = (n.compareDocumentOrder id pivot).swap :=
    Std.OrientedCmp.eq_swap
  rw [hswap, Ordering.swap_eq_gt]

theorem lt_of_isAncestor (hid : n.Uses id) (h : n.isAncestor pivot id) :
    n.compareDocumentOrder pivot id = .lt := lt_of_above hid ((isAncestor_iff_above hid).mp h)

/-- Every identifier stands to the pivot in the relation of its region, and in no other. -/
theorem relates_iff_regionOf (hpivot : n.Uses pivot) (hid : n.Uses id) (region : Region) :
    region.relation.Relates n pivot id ↔ n.regionOf pivot id = region := by
  have hbelow : n.isAncestor pivot id → n.compareDocumentOrder pivot id = .lt :=
    lt_of_isAncestor hid
  have habove : n.isAncestor id pivot → n.compareDocumentOrder pivot id = .gt := fun h =>
    compareDocumentOrder_eq_gt_iff.mpr (lt_of_isAncestor hpivot h)
  have hhere : id = pivot ↔ n.compareDocumentOrder pivot id = .eq :=
    eq_comm.trans Std.LawfulEqCmp.compare_eq_iff_eq.symm
  have hside : n.isBeyond .preceding pivot id ↔
      n.compareDocumentOrder pivot id = .gt ∧ ¬n.isAncestor id pivot := by
    simp [compareDocumentOrder_eq_gt_iff, isBeyond]
  -- Ancestors come first, so that ancestry divides each side in two.
  cases region with
  | here | above | below | after | before =>
    grind [regionOf, isBeyond, Region.relation, Relation.Relates]

end Numbering

namespace NodeSet

/-- What a set of candidates has in a region around a pivot. -/
def region (candidates : NodeSet) (pivot : NodeRef) (remember : Region → Bool) :
    Region → NodeSet
  | .here => ofList [pivot]
  | .above => (candidates.select (ofList [pivot]) (.ancestor false) (remember .above)).1
  | .below => (candidates.select (ofList [pivot]) (.descendant false) (remember .below)).1
  | .after => (candidates.select (ofList [pivot]) (.beyond .following) (remember .after)).1
  | .before => (candidates.select (ofList [pivot]) (.beyond .preceding) (remember .before)).1

variable {candidates : NodeSet} {pivot node : NodeRef} {remember : Region → Bool}

theorem mem_region_iff (h : candidates.NumberedIn pivot.doc.id pivot.doc.numbering)
    (hpivot : pivot.doc.numbering.Numbers pivot.id) (hnode : node ∈ candidates.sort.nodes)
    (hdoc : node.doc.id = pivot.doc.id) (hkind : node.kind ≠ .attribute) (region : Region) :
    node.key ∈ candidates.region pivot remember region ↔
      pivot.doc.numbering.regionOf pivot.id node.id = region := by
  have hid := h.sort.numbers node hnode hdoc
  rw [← Numbering.relates_iff_regionOf (Numbering.numbers_iff_uses.mp hpivot)
    (Numbering.numbers_iff_uses.mp hid)]
  have hselect {relation : Relation} {remember : Bool} :
      node.key ∈ (candidates.select (ofList [pivot]) relation remember).1 ↔
        relation.Admits pivot.kind node.kind ∧
          relation.Relates pivot.doc.numbering pivot.id node.id := by
    have hall {P : NodeRef → Prop} (hP : P pivot) : ∀ anchor ∈ (ofList [pivot]).nodes, P anchor :=
      fun anchor hanchor => List.mem_singleton.mp hanchor ▸ hP
    rw [mem_select_iff (fun _ => pivot.doc.numbering) (hall h) (hall hpivot) (.inr (hall rfl))]
    constructor
    · rintro ⟨other, hother, hkey, anchor, hanchor, -, hpaired⟩
      obtain rfl := List.mem_singleton.mp hanchor
      obtain rfl := List.inj_on_of_nodup_map (nodup_keys_sort candidates) hother hnode hkey
      exact hpaired
    · intro hpaired
      exact ⟨node, hnode, rfl, pivot, List.mem_singleton.mpr rfl, hdoc, hpaired⟩
  cases region with
  | here =>
    show node.key ∈ ofList [pivot] ↔ node.id = pivot.id
    simp [NodeRef.key, hdoc]
  | above | below => exact hselect.trans (and_iff_right trivial)
  | after | before => exact hselect.trans (and_iff_right hkind)

/-- Around a numbered pivot of whatever kind, each candidate of its document that is not an
attribute is in one region. -/
theorem existsUnique_region (h : candidates.NumberedIn pivot.doc.id pivot.doc.numbering)
    (hpivot : pivot.doc.numbering.Numbers pivot.id) (remember : Region → Bool) :
    ∀ node ∈ candidates.sort.nodes, node.doc.id = pivot.doc.id → node.kind ≠ .attribute →
      ∃! region, node.key ∈ candidates.region pivot remember region := by
  intro node hnode hdoc hkind
  refine ⟨pivot.doc.numbering.regionOf pivot.id node.id, ?_, ?_⟩
  · exact (mem_region_iff h hpivot hnode hdoc hkind _).mpr rfl
  · intro region hregion
    exact ((mem_region_iff h hpivot hnode hdoc hkind region).mp hregion).symm

/-- A leaf of the binary tree as an attribute. -/
def leafAttribute : NodeRef := { doc := ⟨⟨1⟩, "", binary⟩, id := 4, kind := .attribute }

theorem existsUnique_region_leafAttribute :
    ∃! region, (⟨1⟩, 2) ∈ (elements [(1, 7), (2, 6), (1, 4), (1, 2), (1, 1), (1, 4)]).region
      leafAttribute (fun region => region = .above) region := by
  have hnumbered : (elements [(1, 7), (2, 6), (1, 4), (1, 2), (1, 1), (1, 4)]).NumberedBy
      fun _ => binary := numberedBy_elements (by decide)
  have hpivot : binary.Numbers leafAttribute.id := by decide
  have hnode : NodeRef.element ⟨⟨1⟩, "", binary⟩ 2 ∈
      (elements [(1, 7), (2, 6), (1, 4), (1, 2), (1, 1), (1, 4)]).sort.nodes :=
    mem_nodes_sort_iff.mpr ⟨_, List.mem_cons_self, rfl⟩
  exact existsUnique_region (hnumbered ⟨1⟩) hpivot _ _ hnode rfl nofun

end NodeSet

end TreeAxes
