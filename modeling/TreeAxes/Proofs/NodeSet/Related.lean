import Mathlib.Tactic.Tauto
import TreeAxes.NodeSet.Membership
import TreeAxes.Selector
import TreeAxes.Proofs.Numbering.Beyond

/-!
# What lookups in a partition find

A relation holds between identifiers of one document, whatever is stored. In a partition
that is sorted and names nodes in use, each lookup finds the entries that the relation it is
made for holds of: `mem_related_iff` for joins, `mem_anchorsIn_iff` for selectors.
-/

namespace TreeAxes

theorem LedBy.mem_takeWhile_iff {α : Type} {p : α → Bool} {xs : List α} {x : α}
    (h : LedBy p xs) : x ∈ xs.takeWhile p ↔ x ∈ xs ∧ p x := by
  induction xs with
  | nil => simp
  | cons y ys ih =>
    obtain ⟨hy, hys⟩ := List.pairwise_cons.mp h
    by_cases hp : p y
    · rw [List.takeWhile_cons_of_pos hp, List.mem_cons, List.mem_cons, ih hys]
      constructor
      · rintro (rfl | hx)
        · exact ⟨.inl rfl, hp⟩
        · exact ⟨.inr hx.1, hx.2⟩
      · rintro ⟨rfl | hx, hpx⟩
        · exact .inl rfl
        · exact .inr ⟨hx, hpx⟩
    · rw [List.takeWhile_cons_of_neg hp]
      constructor
      · intro hx
        cases hx
      · rintro ⟨hx, hpx⟩
        obtain rfl | hx := List.mem_cons.mp hx
        · exact absurd hpx hp
        · exact absurd (hy x hx hpx) hp

namespace Relation

/-- Whether an identifier stands in the relation to that of a context node. -/
def Relates (relation : Relation) (n : Numbering) (context id : Nat) : Prop :=
  match relation with
  | .child => n.parentOf id = context
  | .descendant includeSelf => includeSelf ∧ id = context ∨ n.isAncestor context id
  | .parent => n.parentOf context = id
  | .ancestor includeSelf => includeSelf ∧ id = context ∨ n.isAncestor id context
  | .self => id = context
  | .sibling direction =>
    n.parentOf context ≠ noNode ∧ n.parentOf id = n.parentOf context ∧
      Partition.liesOn direction context id
  | .beyond direction => n.isBeyond direction context id

/-- Whether a selector can look back over the relation. -/
def looksBack : Relation → Bool
  | .sibling _ | .beyond _ => false
  | _ => true

/-- Whether the relation can hold between nodes of the given kinds: beside a node there are no
attributes, and an attribute has no siblings. -/
def Admits (relation : Relation) (context kind : NodeKind) : Prop :=
  match relation with
  | .sibling _ => context ≠ .attribute ∧ kind ≠ .attribute
  | .beyond _ => kind ≠ .attribute
  | _ => True

instance (relation : Relation) (n : Numbering) (context id : Nat) :
    Decidable (relation.Relates n context id) :=
  match relation with
  | .child => inferInstanceAs (Decidable (_ = _))
  | .descendant _ => inferInstanceAs (Decidable (_ ∧ _ ∨ _))
  | .parent => inferInstanceAs (Decidable (_ = _))
  | .ancestor _ => inferInstanceAs (Decidable (_ ∧ _ ∨ _))
  | .self => inferInstanceAs (Decidable (_ = _))
  | .sibling _ => inferInstanceAs (Decidable (_ ∧ _ ∧ _))
  | .beyond _ => inferInstanceAs (Decidable (_ = true))

instance (relation : Relation) (context kind : NodeKind) :
    Decidable (relation.Admits context kind) :=
  match relation with
  | .sibling _ => inferInstanceAs (Decidable (_ ∧ _))
  | .beyond _ => inferInstanceAs (Decidable (_ ≠ _))
  | .child | .descendant _ | .parent | .ancestor _ | .self => inferInstanceAs (Decidable True)

end Relation

namespace Partition

/-- A partition that is sorted and has only entries in use. -/
structure Ready (p : Partition) : Prop where
  ascending : p.nodes.Pairwise (·.id < ·.id)
  uses : ∀ node ∈ p.nodes, p.doc.numbering.Uses node.id

variable {p : Partition} {node : NodeRef} {id parent ancestor : Nat}

theorem mem_toList_find?_iff (h : p.Ready) :
    node ∈ (p.find? id).toList ↔ node ∈ p.nodes ∧ node.id = id := by
  rw [Option.mem_toList, find?_eq_some_iff h.ascending]

theorem mem_range_iff (h : p.Ready) {lower upper : Nat} :
    node ∈ p.range lower upper ↔ node ∈ p.nodes ∧ lower ≤ node.id ∧ node.id ≤ upper := by
  rw [range_eq (h.ascending.imp Nat.le_of_lt), List.mem_filter, decide_eq_true_iff]

theorem mem_children_iff (h : p.Ready) (hparent : p.doc.numbering.Uses parent) :
    node ∈ p.children parent ↔ node ∈ p.nodes ∧ p.doc.numbering.parentOf node.id = parent := by
  rw [children]
  split
  · next window hwindow =>
    rw [mem_range_iff h, Numbering.mem_window_iff hparent hwindow]
    exact and_congr_right fun hnode => and_iff_right (h.uses node hnode)
  · next hwindow =>
    constructor
    · intro hnode
      cases hnode
    · rintro ⟨hnode, heq⟩
      exact absurd heq
        (Numbering.parentOf_ne_of_window?_eq_none hparent hwindow (h.uses node hnode))

/-! ## Upwards -/

theorem parentAt_levelOf {n : Numbering} {level : Nat} (hlevel : n.levelOf id = level) :
    n.parentAt id level = n.parentOf id := by
  rw [Numbering.parentOf, hlevel]

theorem mem_climbToEntry_direct_iff (h : p.Ready) (hid : p.doc.numbering.Uses id) {level : Nat}
    (hlevel : p.doc.numbering.levelOf id = level) :
    node ∈ (p.climbToEntry true level id).toList ↔
      node ∈ p.nodes ∧ node.id = p.doc.numbering.parentOf id := by
  have huses := h.uses node
  cases level with
  | zero =>
    rw [climbToEntry, Numbering.parentOf_of_levelOf_eq_zero hlevel]
    constructor
    · intro hnode
      cases hnode
    · rintro ⟨hnode, heq⟩
      exact absurd heq (huses hnode).ne_noNode
  | succ level =>
    have hne := hid.parentOf_ne_noNode_iff.mpr (hlevel ▸ Nat.succ_pos level)
    rw [climbToEntry, parentAt_levelOf hlevel, if_neg hne, ← mem_toList_find?_iff h]
    cases p.find? (p.doc.numbering.parentOf id) with
    | none => rfl
    | some found => rfl

theorem isSome_climbToEntry_iff (h : p.Ready) (hid : p.doc.numbering.Uses id) {level : Nat}
    (hlevel : p.doc.numbering.levelOf id = level) :
    (p.climbToEntry false level id).isSome ↔
      ∃ node ∈ p.nodes, p.doc.numbering.isAncestor node.id id := by
  induction level generalizing id with
  | zero =>
    rw [climbToEntry]
    constructor
    · intro hnone
      cases hnone
    · rintro ⟨node, -, hancestor⟩
      have := (Numbering.isAncestor_iff.mp hancestor).1
      omega
  | succ level ih =>
    have hpos : 0 < p.doc.numbering.levelOf id := hlevel ▸ Nat.succ_pos level
    have hne := hid.parentOf_ne_noNode_iff.mpr hpos
    obtain ⟨huses, hparent⟩ := hid.parentOf hpos
    rw [climbToEntry, parentAt_levelOf hlevel, if_neg hne]
    simp only [Numbering.isAncestor_iff_parentOf hid, hne, ne_eq, not_false_eq_true, true_and]
    cases hfound : p.find? (p.doc.numbering.parentOf id) with
    | some found =>
      obtain ⟨hmem, heq⟩ := (find?_eq_some_iff h.ascending).mp hfound
      exact iff_of_true rfl ⟨found, hmem, .inl heq⟩
    | none =>
      refine (ih huses (by omega)).trans (exists_congr fun node => and_congr_right fun hnode => ?_)
      refine (or_iff_right fun heq => ?_).symm
      rw [(find?_eq_some_iff h.ascending).mpr ⟨hnode, heq⟩] at hfound
      cases hfound

theorem mem_entriesAbove_iff (h : p.Ready) (hid : p.doc.numbering.Uses id) {level : Nat}
    (hlevel : p.doc.numbering.levelOf id = level) :
    node ∈ p.entriesAbove level id ↔
      node ∈ p.nodes ∧ p.doc.numbering.isAncestor node.id id := by
  induction level generalizing id with
  | zero =>
    rw [entriesAbove]
    constructor
    · intro hnode
      cases hnode
    · rintro ⟨-, hancestor⟩
      have := (Numbering.isAncestor_iff.mp hancestor).1
      omega
  | succ level ih =>
    have hpos : 0 < p.doc.numbering.levelOf id := hlevel ▸ Nat.succ_pos level
    have hne := hid.parentOf_ne_noNode_iff.mpr hpos
    obtain ⟨huses, hparent⟩ := hid.parentOf hpos
    rw [entriesAbove, parentAt_levelOf hlevel, List.mem_append, mem_toList_find?_iff h,
      ih huses (by omega), Numbering.isAncestor_iff_parentOf hid, ← and_or_left]
    exact and_congr_right fun _ => (and_iff_right hne).symm

/-- The nearest entry that `directOnly` allows is the parent's. -/
theorem mem_nearest_direct_iff (h : p.Ready) (hid : p.doc.numbering.Uses id) :
    node ∈ (p.nearest id true false).toList ↔
      node ∈ p.nodes ∧ node.id = p.doc.numbering.parentOf id :=
  mem_climbToEntry_direct_iff h hid rfl

theorem isSome_nearest_iff (h : p.Ready) (hid : p.doc.numbering.Uses id) (includeSelf : Bool) :
    (p.nearest id false includeSelf).isSome ↔
      ∃ node ∈ p.nodes, includeSelf ∧ node.id = id ∨ p.doc.numbering.isAncestor node.id id := by
  have hclimb := isSome_climbToEntry_iff h hid rfl
  rw [nearest]
  cases includeSelf with
  | false => simpa using hclimb
  | true =>
    rw [if_pos rfl]
    cases hfound : p.find? id with
    | some found =>
      obtain ⟨hmem, heq⟩ := (find?_eq_some_iff h.ascending).mp hfound
      exact iff_of_true rfl ⟨found, hmem, .inl ⟨rfl, heq⟩⟩
    | none =>
      refine hclimb.trans (exists_congr fun node => and_congr_right fun hnode => ?_)
      refine (or_iff_right fun hself => ?_).symm
      rw [(find?_eq_some_iff h.ascending).mpr ⟨hnode, hself.2⟩] at hfound
      cases hfound

theorem mem_ancestors_iff (h : p.Ready) (hid : p.doc.numbering.Uses id) {includeSelf : Bool} :
    node ∈ p.ancestors id includeSelf ↔
      node ∈ p.nodes ∧ (includeSelf ∧ node.id = id ∨ p.doc.numbering.isAncestor node.id id) := by
  rw [ancestors, List.mem_append, mem_entriesAbove_iff h hid rfl, and_or_left]
  refine or_congr_left ?_
  cases includeSelf with
  | false => simp
  | true => simpa using mem_toList_find?_iff h

/-! ## Downwards -/

/-- Leaving out the blocks behind the last entry loses no entry. -/
theorem exists_mem_blocks_iff (h : p.Ready) (hnode : node ∈ p.nodes) :
    (∃ block ∈ p.blocks ancestor, block.first ≤ node.id ∧ node.id ≤ block.last) ↔
      ∃ block ∈ p.doc.numbering.blocksBelow ancestor ancestor,
        block.first ≤ node.id ∧ node.id ≤ block.last := by
  rw [blocks]
  cases hlast : p.entries.back? with
  | none =>
    rw [Array.back?_eq_none_iff] at hlast
    simp [nodes, hlast] at hnode
  | some last =>
    have hled : LedBy (fun block : Window => decide (block.first ≤ last.id))
        (p.doc.numbering.blocksBelow ancestor ancestor) :=
      (Numbering.pairwise_blocksBelow _ _ _).imp fun {a b} hab => by
        simpa using fun hb => Nat.le_trans (Nat.le_of_lt hab) hb
    have hle : node.id ≤ last.id := by
      rw [← Array.getLast?_toList] at hlast
      obtain ⟨before, hnodes⟩ := List.getLast?_eq_some_iff.mp hlast
      have hnodes : p.nodes = before ++ [last] := hnodes
      have hascending := h.ascending
      rw [hnodes] at hnode hascending
      obtain hbefore | hself := List.mem_append.mp hnode
      · exact Nat.le_of_lt ((List.pairwise_append.mp hascending).2.2 _ hbefore _ (by simp))
      · exact Nat.le_of_eq (congrArg NodeRef.id (List.mem_singleton.mp hself))
    refine exists_congr fun block => ?_
    rw [hled.mem_takeWhile_iff, decide_eq_true_iff, and_assoc]
    exact and_congr_right fun _ => and_iff_right_of_imp fun hbounds => Nat.le_trans hbounds.1 hle

theorem mem_blocks_ranges_iff (h : p.Ready) (hancestor : p.doc.numbering.Uses ancestor) :
    (∃ block ∈ p.blocks ancestor, node ∈ p.range block.first block.last) ↔
      node ∈ p.nodes ∧ p.doc.numbering.isAncestor ancestor node.id := by
  have hbelow (hnode : node ∈ p.nodes) :=
    (exists_mem_blocks_iff h hnode).trans
      (Numbering.mem_blocksBelow_self_iff hancestor (h.uses node hnode))
  constructor
  · rintro ⟨block, hblock, hrange⟩
    obtain ⟨hnode, hbounds⟩ := (mem_range_iff h).mp hrange
    exact ⟨hnode, (hbelow hnode).mp ⟨block, hblock, hbounds⟩⟩
  · rintro ⟨hnode, hancestor⟩
    obtain ⟨block, hblock, hbounds⟩ := (hbelow hnode).mpr hancestor
    exact ⟨block, hblock, (mem_range_iff h).mpr ⟨hnode, hbounds⟩⟩

theorem mem_descendants_iff (h : p.Ready) (hancestor : p.doc.numbering.Uses ancestor)
    {includeSelf : Bool} :
    node ∈ p.descendants ancestor includeSelf ↔
      node ∈ p.nodes ∧
        (includeSelf ∧ node.id = ancestor ∨ p.doc.numbering.isAncestor ancestor node.id) := by
  rw [descendants, List.mem_append, List.mem_flatMap, mem_blocks_ranges_iff h hancestor,
    and_or_left]
  refine or_congr_left ?_
  cases includeSelf with
  | false => simp
  | true => simpa using mem_toList_find?_iff h

/-! ## Joins and selections -/

theorem mem_siblings_iff (h : p.Ready) {context : NodeRef} {direction : Direction}
    (hdoc : context.doc.numbering = p.doc.numbering)
    (hcontext : p.doc.numbering.Uses context.id) :
    node ∈ p.siblings context direction ↔
      node ∈ p.nodes ∧ (Relation.sibling direction).Admits context.kind node.kind ∧
        (Relation.sibling direction).Relates p.doc.numbering context.id node.id := by
  have hparent : context.parent = p.doc.numbering.parentOf context.id := by
    rw [NodeRef.parent, hdoc]
  rw [siblings, hparent, Relation.Admits, Relation.Relates]
  split
  · next hnone =>
    constructor
    · intro hnode
      cases hnode
    · rintro ⟨-, ⟨hkind, -⟩, hne, -⟩
      exact absurd hnone (not_or.mpr ⟨hne, hkind⟩)
  · next hsome =>
    obtain ⟨hne, hkind⟩ := not_or.mp hsome
    have huses := (hcontext.parentOf (hcontext.parentOf_ne_noNode_iff.mp hne)).1
    rw [List.mem_filter, mem_children_iff h huses, Bool.and_eq_true, decide_eq_true_iff]
    tauto

/-- What a join pairs with a context node: the entries that stand in the relation to it. Only what
stands beside the node is looked up by the document that the node itself refers to. -/
theorem mem_related_iff (h : p.Ready) {relation : Relation} {context : NodeRef}
    (hdoc : relation.looksBack ∨ context.doc.numbering = p.doc.numbering)
    (hcontext : p.doc.numbering.Uses context.id) :
    node ∈ p.related relation context ↔
      node ∈ p.nodes ∧ relation.Admits context.kind node.kind ∧
        relation.Relates p.doc.numbering context.id node.id := by
  cases relation with
  | child => simpa [related, Relation.Admits, Relation.Relates] using mem_children_iff h hcontext
  | descendant includeSelf =>
    simpa [related, Relation.Admits, Relation.Relates] using mem_descendants_iff h hcontext
  | parent =>
    simpa [related, Relation.Admits, Relation.Relates, eq_comm] using
      mem_nearest_direct_iff h hcontext
  | ancestor includeSelf =>
    simpa [related, Relation.Admits, Relation.Relates] using mem_ancestors_iff h hcontext
  | self => simpa [related, Relation.Admits, Relation.Relates] using mem_toList_find?_iff h
  | sibling direction => exact mem_siblings_iff h (hdoc.resolve_left Bool.false_ne_true) hcontext
  | beyond direction =>
    simp [related, beyond, Relation.Admits, Relation.Relates]

/-! ## Any partition -/

theorem mem_nodes_of_find? (h : p.find? id = some node) : node ∈ p.nodes := by
  obtain ⟨hplace, -⟩ := Option.filter_eq_some_iff.mp h
  rw [← Array.getElem?_toList] at hplace
  exact List.mem_of_getElem? hplace

theorem mem_nodes_of_mem_range {lower upper : Nat} (h : node ∈ p.range lower upper) :
    node ∈ p.nodes := by
  rw [range, Array.toList_extract, List.extract_eq_drop_take'] at h
  exact List.mem_of_mem_take (List.mem_of_mem_drop h)

theorem mem_nodes_of_mem_children (h : node ∈ p.children parent) : node ∈ p.nodes := by
  rw [children] at h
  split at h
  · exact mem_nodes_of_mem_range h
  · cases h

theorem mem_nodes_of_climbToEntry {directOnly : Bool} {level : Nat}
    (h : p.climbToEntry directOnly level id = some node) : node ∈ p.nodes := by
  induction level generalizing id with
  | zero => cases h
  | succ level ih =>
    rw [climbToEntry] at h
    split at h
    · cases h
    · split at h
      · next hfound =>
        cases h
        exact mem_nodes_of_find? hfound
      · split at h
        · cases h
        · exact ih h

theorem mem_nodes_of_mem_entriesAbove {level : Nat} (h : node ∈ p.entriesAbove level id) :
    node ∈ p.nodes := by
  induction level generalizing id with
  | zero => cases h
  | succ level ih =>
    obtain hfound | habove := List.mem_append.mp h
    · exact mem_nodes_of_find? (Option.mem_toList.mp hfound)
    · exact ih habove

theorem mem_nodes_of_mem_self {includeSelf : Bool}
    (h : node ∈ if includeSelf then (p.find? id).toList else []) : node ∈ p.nodes := by
  split at h
  · exact mem_nodes_of_find? (Option.mem_toList.mp h)
  · cases h

/-- Lookups find entries, whatever the partition. -/
theorem mem_nodes_of_mem_related {relation : Relation} {context : NodeRef}
    (h : node ∈ p.related relation context) : node ∈ p.nodes := by
  cases relation with
  | child => exact mem_nodes_of_mem_children h
  | descendant includeSelf =>
    obtain hself | hbelow := List.mem_append.mp h
    · exact mem_nodes_of_mem_self hself
    · obtain ⟨block, -, hrange⟩ := List.mem_flatMap.mp hbelow
      exact mem_nodes_of_mem_range hrange
  | parent => exact mem_nodes_of_climbToEntry (Option.mem_toList.mp h)
  | ancestor includeSelf =>
    obtain hself | habove := List.mem_append.mp h
    · exact mem_nodes_of_mem_self hself
    · exact mem_nodes_of_mem_entriesAbove habove
  | self => exact mem_nodes_of_find? (Option.mem_toList.mp h)
  | sibling direction =>
    rw [related, siblings] at h
    split at h
    · cases h
    · exact mem_nodes_of_mem_children (List.mem_filter.mp h).1
  | beyond direction => exact (List.mem_filter.mp h).1

end Partition

theorem Relation.admits_of_looksBack {relation : Relation} (h : relation.looksBack)
    (context kind : NodeKind) : relation.Admits context kind := by
  cases relation with
  | sibling | beyond => cases h
  | child | descendant | parent | ancestor | self => trivial

/-- What a selector looks up from a candidate: the context nodes that it stands in the relation
to. -/
theorem Selector.mem_anchorsIn_iff {p : Partition} {relation : Relation} {context : NodeRef}
    {id : Nat} (h : p.Ready) (hid : p.doc.numbering.Uses id) (hback : relation.looksBack) :
    context ∈ anchorsIn relation p id ↔
      context ∈ p.nodes ∧ relation.Relates p.doc.numbering context.id id := by
  cases relation with
  | child =>
    simpa [anchorsIn, Relation.Relates, eq_comm] using Partition.mem_nearest_direct_iff h hid
  | descendant includeSelf =>
    show context ∈ p.ancestors id includeSelf ↔
      context ∈ p.nodes ∧ (includeSelf ∧ id = context.id ∨ _)
    rw [Partition.mem_ancestors_iff h hid, eq_comm (a := id)]
  | parent => exact Partition.mem_children_iff h hid
  | ancestor includeSelf =>
    show context ∈ p.descendants id includeSelf ↔
      context ∈ p.nodes ∧ (includeSelf ∧ id = context.id ∨ _)
    rw [Partition.mem_descendants_iff h hid, eq_comm (a := id)]
  | self =>
    simpa [anchorsIn, Relation.Relates, eq_comm] using Partition.mem_toList_find?_iff h
  | sibling | beyond => cases hback

end TreeAxes
