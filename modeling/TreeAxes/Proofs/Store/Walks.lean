import Mathlib.Tactic.Tauto
import TreeAxes.Proofs.Numbering.Beyond
import TreeAxes.Proofs.Store.Layout

/-!
# What walks visit

In a store of nested trees, the walks of a node source visit exactly the stored nodes that the
numbering places below, beside or beyond the node they start at. Everything above a stored
node is a stored element, so a walk that goes into elements only misses nothing.
-/

namespace TreeAxes

namespace StoredDocument

variable {d : StoredDocument} {slot other : Slot} {a : Nat}

/-- The document has a node of the kind of a slot there. -/
def Holds (d : StoredDocument) (slot : Slot) : Prop :=
  ∃ node ∈ d.nodes, node.id = slot.id ∧ node.kind = slot.kind

instance : Decidable (d.Holds slot) := inferInstanceAs (Decidable (∃ node ∈ d.nodes, _))

theorem Holds.uses (h : d.Identifies) (hslot : d.Holds slot) : d.doc.numbering.Uses slot.id := by
  obtain ⟨node, hnode, hid, -⟩ := hslot
  exact hid ▸ h.uses node hnode

/-- What stands above a stored node is a stored element. -/
theorem Holds.of_parentOf (h : d.Nested) (hslot : d.Holds slot)
    (hne : d.doc.numbering.parentOf slot.id ≠ noNode) :
    d.Holds ⟨d.doc.numbering.parentOf slot.id, .element⟩ := by
  obtain ⟨node, hnode, hid, -⟩ := hslot
  rw [← hid] at hne ⊢
  have hroot : node.id ≠ rootNode := fun hroot => hne <| by
    rw [hroot, Numbering.parentOf_rootNode]
  obtain ⟨parent, hparent, hpid, hkind⟩ := h.subtree.parent node hnode hroot
  exact ⟨parent, hparent, hpid, hkind⟩

theorem Holds.of_isAncestor (h : d.Nested) (hslot : d.Holds slot)
    (hancestor : d.doc.numbering.isAncestor a slot.id) : d.Holds ⟨a, .element⟩ := by
  induction hlevel : d.doc.numbering.levelOf slot.id generalizing slot with
  | zero =>
    have := (Numbering.isAncestor_iff.mp hancestor).1
    omega
  | succ level ih =>
    have huses := hslot.uses h.identifies
    obtain ⟨hne, hcases⟩ := (Numbering.isAncestor_iff_parentOf huses).mp hancestor
    have hparent := hslot.of_parentOf h hne
    obtain rfl | hancestor := hcases
    · exact hparent
    · have := huses.levelOf_parentOf hne
      exact ih hparent hancestor (by simp only; omega)

/-- A slot holds one node. -/
theorem Holds.kind_eq (h : d.Identifies) (hslot : d.Holds slot) (hother : d.Holds other)
    (hid : slot.id = other.id) : slot.kind = other.kind := by
  obtain ⟨node, hnode, hnid, hkind⟩ := hslot
  obtain ⟨node', hnode', hnid', hkind'⟩ := hother
  have hinj := List.inj_on_of_nodup_map h.nodup
  rw [← hkind, ← hkind', hinj hnode hnode' (by rw [hnid, hnid', hid])]

/-- A node with something below it is an element. -/
theorem Holds.element_of_parentOf (h : d.Nested) (hslot : d.Holds slot) (hother : d.Holds other)
    (hparent : d.doc.numbering.parentOf other.id = slot.id) : slot.kind = .element := by
  have hne := (hslot.uses h.identifies).ne_noNode
  exact hslot.kind_eq h.identifies (hother.of_parentOf h (hparent ▸ hne)) hparent.symm

end StoredDocument

namespace NodeSource

open TreeAxes.Partition (liesOn)

variable {store : Store} {d : StoredDocument} {slot x : Slot} {id : Nat} {direction : Direction}

theorem kindOf_eq_some_iff (h : d.Identifies) (hfound : store.document? d.doc.id = some d)
    {kind : NodeKind} : store.source.kindOf d.doc id = some kind ↔ d.Holds ⟨id, kind⟩ := by
  rw [Store.source]
  simp only [hfound, Option.bind_eq_bind, Option.bind_some]
  constructor
  · intro hkind
    obtain ⟨node, hnode, hk⟩ := Option.bind_eq_some_iff.mp hkind
    obtain ⟨hmem, hid⟩ := (StoredDocument.node?_eq_some_iff h).mp hnode
    exact ⟨node, hmem, hid, Option.some_inj.mp hk⟩
  · rintro ⟨node, hmem, hid, rfl⟩
    rw [(StoredDocument.node?_eq_some_iff h).mpr ⟨hmem, hid⟩]
    rfl

theorem pairwise_children (source : NodeSource) (doc : Document) (parent : Nat) :
    (source.children doc parent).Pairwise (·.id < ·.id) := by
  rw [children]
  split
  · next window _ =>
    refine List.Pairwise.filterMap _ (fun id id' hlt slot hslot slot' hslot' => ?_)
      (List.pairwise_lt_range' 1)
    obtain ⟨kind, -, rfl⟩ := Option.map_eq_some_iff.mp hslot
    obtain ⟨kind', -, rfl⟩ := Option.map_eq_some_iff.mp hslot'
    exact hlt
  · exact .nil

theorem mem_children_iff_of_identifies (h : d.Identifies)
    (hfound : store.document? d.doc.id = some d) (hid : d.doc.numbering.Uses id) :
    x ∈ store.source.children d.doc id ↔ d.Holds x ∧ d.doc.numbering.parentOf x.id = id := by
  rw [children]
  split
  · next window hwindow =>
    rw [List.mem_filterMap]
    have hids (slot : Nat) : slot ∈ window.ids ↔
        d.doc.numbering.Uses slot ∧ d.doc.numbering.parentOf slot = id := by
      rw [← Numbering.mem_window_iff hid hwindow, Window.ids, List.mem_range'_1, Window.last]
      have := Numbering.window?_slots_pos hwindow
      omega
    constructor
    · rintro ⟨slot, hslot, hx⟩
      obtain ⟨kind, hkind, rfl⟩ := Option.map_eq_some_iff.mp hx
      exact ⟨(kindOf_eq_some_iff h hfound).mp hkind, ((hids slot).mp hslot).2⟩
    · rintro ⟨hx, hparent⟩
      refine ⟨x.id, (hids x.id).mpr ⟨hx.uses h, hparent⟩, ?_⟩
      rw [(kindOf_eq_some_iff h hfound).mpr hx, Option.map_some]
  · next hwindow =>
    constructor
    · intro hx
      cases hx
    · rintro ⟨hx, hparent⟩
      have huses := hx.uses h
      exact absurd hparent (Numbering.parentOf_ne_of_window?_eq_none hid hwindow huses)

theorem mem_children_iff (h : store.Nested) (hd : d ∈ store.documents)
    (hid : d.doc.numbering.Uses id) :
    x ∈ store.source.children d.doc id ↔ d.Holds x ∧ d.doc.numbering.parentOf x.id = id :=
  mem_children_iff_of_identifies (h.identifies hd) (h.document?_eq hd) hid

/-- Only elements have anything below them, so it does not matter that others are not asked. -/
theorem mem_filter_children_iff (h : store.Nested) (hd : d ∈ store.documents)
    (hslot : d.Holds slot) (p : Slot → Bool) :
    (x ∈ if slot.kind = .element then (store.source.children d.doc slot.id).filter p else []) ↔
      d.Holds x ∧ d.doc.numbering.parentOf x.id = slot.id ∧ p x := by
  have hchildren := mem_children_iff (x := x) h hd (hslot.uses (h.identifies hd))
  split
  · rw [List.mem_filter, hchildren, and_assoc]
  · next hkind =>
    constructor
    · intro hx
      cases hx
    · rintro ⟨hx, hparent, -⟩
      exact absurd (hslot.element_of_parentOf (h.nested d hd) hx hparent) hkind

theorem mem_contents_iff (h : store.Nested) (hd : d ∈ store.documents) (hslot : d.Holds slot) :
    x ∈ store.source.contents d.doc slot ↔
      d.Holds x ∧ d.doc.numbering.parentOf x.id = slot.id ∧ x.kind ≠ .attribute := by
  rw [contents, mem_filter_children_iff h hd hslot, decide_eq_true_iff]

theorem mem_attributes_iff (h : store.Nested) (hd : d ∈ store.documents) (hslot : d.Holds slot) :
    x ∈ store.source.attributes d.doc slot ↔
      d.Holds x ∧ d.doc.numbering.parentOf x.id = slot.id ∧ x.kind = .attribute := by
  rw [attributes, mem_filter_children_iff h hd hslot, decide_eq_true_iff]

/-- The step from a node to its descendants through its children, all of them stored. -/
theorem isAncestor_iff_contents (h : store.Nested) (hd : d ∈ store.documents)
    (hslot : d.Holds slot) (hx : d.Holds x) :
    d.doc.numbering.isAncestor slot.id x.id ↔
      d.doc.numbering.parentOf x.id = slot.id ∨
        ∃ child ∈ store.source.contents d.doc slot, d.doc.numbering.isAncestor child.id x.id := by
  have hnested := h.nested d hd
  rw [Numbering.isAncestor_iff_child (hslot.uses hnested.identifies) (hx.uses hnested.identifies)]
  constructor
  · rintro ⟨child, -, hparent, rfl | hancestor⟩
    · exact .inl hparent
    · refine .inr ⟨⟨child, .element⟩, (mem_contents_iff h hd hslot).mpr ?_, hancestor⟩
      exact ⟨hx.of_isAncestor hnested hancestor, hparent, nofun⟩
  · rintro (hparent | ⟨child, hchild, hancestor⟩)
    · exact ⟨x.id, hx.uses hnested.identifies, hparent, .inl rfl⟩
    · obtain ⟨hchild, hparent, -⟩ := (mem_contents_iff h hd hslot).mp hchild
      exact ⟨child.id, hchild.uses hnested.identifies, hparent, .inr hancestor⟩

/-- If walks through the subtrees of its children visit what they should, what they visit
together is all that is below a node, except attributes. -/
theorem mem_contents_subtrees_of (h : store.Nested) (hd : d ∈ store.documents)
    (hslot : d.Holds slot)
    (hsub : ∀ child ∈ store.source.contents d.doc slot,
      (x ∈ store.source.subtree d.doc child ↔ d.Holds x ∧
        (x = child ∨ x.kind ≠ .attribute ∧ d.doc.numbering.isAncestor child.id x.id))) :
    (∃ child ∈ store.source.contents d.doc slot, x ∈ store.source.subtree d.doc child) ↔
      d.Holds x ∧ x.kind ≠ .attribute ∧ d.doc.numbering.isAncestor slot.id x.id := by
  constructor
  · rintro ⟨child, hchild, hx⟩
    obtain ⟨-, hparent, hkind⟩ := (mem_contents_iff h hd hslot).mp hchild
    obtain ⟨hx, hcases⟩ := (hsub child hchild).mp hx
    refine ⟨hx, ?_⟩
    rw [isAncestor_iff_contents h hd hslot hx]
    obtain rfl | ⟨hxkind, hancestor⟩ := hcases
    · exact ⟨hkind, .inl hparent⟩
    · exact ⟨hxkind, .inr ⟨child, hchild, hancestor⟩⟩
  · rintro ⟨hx, hkind, hancestor⟩
    obtain hparent | ⟨child, hchild, hancestor⟩ :=
      (isAncestor_iff_contents h hd hslot hx).mp hancestor
    · have hchild := (mem_contents_iff h hd hslot).mpr ⟨hx, hparent, hkind⟩
      exact ⟨x, hchild, (hsub x hchild).mpr ⟨hx, .inl rfl⟩⟩
    · exact ⟨child, hchild, (hsub child hchild).mpr ⟨hx, .inr ⟨hkind, hancestor⟩⟩⟩

/-- A walk through a subtree visits its root and all that is below it, except attributes. -/
theorem mem_subtree_iff (h : store.Nested) (hd : d ∈ store.documents) (hslot : d.Holds slot) :
    x ∈ store.source.subtree d.doc slot ↔
      d.Holds x ∧ (x = slot ∨ x.kind ≠ .attribute ∧ d.doc.numbering.isAncestor slot.id x.id) := by
  fun_induction subtree store.source d.doc slot with
  | case1 slot ih =>
    have hbelow := mem_contents_subtrees_of h hd hslot fun child hchild =>
      ih child hchild ((mem_contents_iff h hd hslot).mp hchild).1
    simp only [List.mem_cons, List.mem_flatMap, List.mem_attach, true_and, Subtype.exists,
      exists_prop, hbelow]
    rw [and_or_left]
    exact or_congr_left (iff_and_self.mpr fun heq => heq ▸ hslot)

/-- The subtrees of the children of a node hold all that is below it, except attributes. -/
theorem mem_contents_subtrees_iff (h : store.Nested) (hd : d ∈ store.documents)
    (hslot : d.Holds slot) :
    x ∈ (store.source.contents d.doc slot).flatMap (store.source.subtree d.doc) ↔
      d.Holds x ∧ x.kind ≠ .attribute ∧ d.doc.numbering.isAncestor slot.id x.id := by
  rw [List.mem_flatMap]
  exact mem_contents_subtrees_of h hd hslot fun child hchild =>
    mem_subtree_iff h hd ((mem_contents_iff h hd hslot).mp hchild).1

/-- A walk for attributes visits those of all elements below its root. -/
theorem mem_attributesWithin_iff (h : store.Nested) (hd : d ∈ store.documents)
    (hslot : d.Holds slot) :
    x ∈ store.source.attributesWithin d.doc slot ↔
      d.Holds x ∧ x.kind = .attribute ∧ d.doc.numbering.isAncestor slot.id x.id := by
  fun_induction attributesWithin store.source d.doc slot with
  | case1 slot ih =>
    have hsub (child : Slot) (hchild : child ∈ store.source.contents d.doc slot) :=
      ih child hchild ((mem_contents_iff h hd hslot).mp hchild).1
    rw [List.mem_append, List.mem_flatMap, mem_attributes_iff h hd hslot]
    constructor
    · rintro (⟨hx, hparent, hkind⟩ | ⟨⟨child, hchild⟩, -, hx⟩)
      · exact ⟨hx, hkind, (isAncestor_iff_contents h hd hslot hx).mpr (.inl hparent)⟩
      · obtain ⟨hx, hkind, hancestor⟩ := (hsub child hchild).mp hx
        refine ⟨hx, hkind, (isAncestor_iff_contents h hd hslot hx).mpr (.inr ?_)⟩
        exact ⟨child, hchild, hancestor⟩
    · rintro ⟨hx, hkind, hancestor⟩
      obtain hparent | ⟨child, hchild, hancestor⟩ :=
        (isAncestor_iff_contents h hd hslot hx).mp hancestor
      · exact .inl ⟨hx, hparent, hkind⟩
      · exact .inr ⟨⟨child, hchild⟩, List.mem_attach _ _,
          (hsub child hchild).mpr ⟨hx, hkind, hancestor⟩⟩

/-! ## Beside and beyond -/

theorem mem_siblings_iff (h : store.Nested) (hd : d ∈ store.documents)
    (hid : d.doc.numbering.Uses id) :
    x ∈ store.source.siblings d.doc id direction ↔
      d.Holds x ∧ x.kind ≠ .attribute ∧ d.doc.numbering.parentOf id ≠ noNode ∧
        d.doc.numbering.parentOf x.id = d.doc.numbering.parentOf id ∧
          liesOn direction id x.id := by
  rw [siblings]
  split
  · next hnone =>
    constructor
    · intro hx
      cases hx
    · rintro ⟨-, -, hne, -⟩
      exact absurd hnone hne
  · next hne =>
    have huses := (hid.parentOf (hid.parentOf_ne_noNode_iff.mp hne)).1
    cases direction with
    | following =>
      simp only [List.mem_filter, mem_children_iff h hd huses, liesOn, decide_eq_true_eq]
      tauto
    | preceding =>
      simp only [List.mem_reverse, List.mem_filter, mem_children_iff h hd huses, liesOn,
        decide_eq_true_eq]
      tauto

/-- The subtrees beside a node hold what lies below its siblings on that side. -/
theorem mem_siblings_subtrees_iff (h : store.Nested) (hd : d ∈ store.documents)
    (hid : d.doc.numbering.Uses id) :
    x ∈ (store.source.siblings d.doc id direction).flatMap (store.source.subtree d.doc) ↔
      d.Holds x ∧ x.kind ≠ .attribute ∧ d.doc.numbering.parentOf id ≠ noNode ∧
        ∃ sibling, d.doc.numbering.Uses sibling ∧
          d.doc.numbering.parentOf sibling = d.doc.numbering.parentOf id ∧
            liesOn direction id sibling ∧
              (sibling = x.id ∨ d.doc.numbering.isAncestor sibling x.id) := by
  have hnested := h.nested d hd
  rw [List.mem_flatMap]
  constructor
  · rintro ⟨sibling, hsibling, hx⟩
    obtain ⟨hholds, hkind, hne, hparent, hside⟩ := (mem_siblings_iff h hd hid).mp hsibling
    obtain ⟨hx, rfl | ⟨hxkind, hancestor⟩⟩ := (mem_subtree_iff h hd hholds).mp hx
    · exact ⟨hholds, hkind, hne, x.id, hholds.uses hnested.identifies, hparent, hside, .inl rfl⟩
    · exact ⟨hx, hxkind, hne, sibling.id, hholds.uses hnested.identifies, hparent, hside,
        .inr hancestor⟩
  · rintro ⟨hx, hkind, hne, sibling, huses, hparent, hside, rfl | hancestor⟩
    · exact ⟨x, (mem_siblings_iff h hd hid).mpr ⟨hx, hkind, hne, hparent, hside⟩,
        (mem_subtree_iff h hd hx).mpr ⟨hx, .inl rfl⟩⟩
    · have hholds := hx.of_isAncestor hnested hancestor
      exact ⟨⟨sibling, .element⟩,
        (mem_siblings_iff h hd hid).mpr ⟨hholds, nofun, hne, hparent, hside⟩,
        (mem_subtree_iff h hd hholds).mpr ⟨hx, .inr ⟨hkind, hancestor⟩⟩⟩

theorem besideClimb_noNode (source : NodeSource) (doc : Document) (direction : Direction) :
    source.besideClimb doc direction noNode = [] := by
  rw [besideClimb, dif_pos rfl]

/-- A climb meets what lies beyond the node that it starts at. -/
theorem mem_besideClimb_iff (h : store.Nested) (hd : d ∈ store.documents)
    (hid : d.doc.numbering.Uses id) :
    x ∈ store.source.besideClimb d.doc direction id ↔
      d.Holds x ∧ x.kind ≠ .attribute ∧ d.doc.numbering.isBeyond direction id x.id := by
  fun_induction besideClimb store.source d.doc direction id with
  | case1 => exact absurd rfl hid.ne_noNode
  | case2 id hne ih =>
    rw [List.mem_append, mem_siblings_subtrees_iff h hd hid]
    by_cases hparent : d.doc.numbering.parentOf id = noNode
    · rw [hparent, besideClimb_noNode]
      constructor
      · rintro (⟨-, -, hne, -⟩ | hx)
        · exact absurd rfl hne
        · cases hx
      · rintro ⟨hx, -, hbeyond⟩
        rw [Numbering.isBeyond_iff_parentOf hid (hx.uses (h.identifies hd))] at hbeyond
        exact absurd hparent hbeyond.1
    · rw [ih (hid.parentOf (hid.parentOf_ne_noNode_iff.mp hparent)).1]
      constructor
      · rintro (⟨hx, hkind, hne, hsibling⟩ | ⟨hx, hkind, hbeyond⟩)
        · refine ⟨hx, hkind, ?_⟩
          rw [Numbering.isBeyond_iff_parentOf hid (hx.uses (h.identifies hd))]
          exact ⟨hne, .inl hsibling⟩
        · refine ⟨hx, hkind, ?_⟩
          rw [Numbering.isBeyond_iff_parentOf hid (hx.uses (h.identifies hd))]
          exact ⟨hparent, .inr hbeyond⟩
      · rintro ⟨hx, hkind, hbeyond⟩
        rw [Numbering.isBeyond_iff_parentOf hid (hx.uses (h.identifies hd))] at hbeyond
        obtain ⟨hne, hsibling | hbeyond⟩ := hbeyond
        · exact .inl ⟨hx, hkind, hne, hsibling⟩
        · exact .inr ⟨hx, hkind, hbeyond⟩

/-- The children of an element come after its attributes. -/
theorem lt_of_attribute (h : d.Nested) {owned : Slot} (howned : d.Holds owned)
    (hkind : owned.kind = .attribute) (hx : d.Holds x) (hxkind : x.kind ≠ .attribute)
    (hne : d.doc.numbering.parentOf owned.id ≠ noNode)
    (hparent : d.doc.numbering.parentOf x.id = d.doc.numbering.parentOf owned.id) :
    owned.id < x.id := by
  have hroot {id : Nat} (hid : d.doc.numbering.parentOf id ≠ noNode) : id ≠ rootNode :=
    fun hroot => hid (by rw [hroot, Numbering.parentOf_rootNode])
  obtain ⟨a, ha, haid, hak⟩ := howned
  obtain ⟨b, hb, hbid, hbk⟩ := hx
  rw [← haid] at hne hparent ⊢
  rw [← hbid] at hparent ⊢
  refine h.subtree.attributesFirst a ha b hb (hroot hne) (hroot (hparent ▸ hne)) hparent.symm
    (hak.trans hkind) fun hattribute => hxkind (hbk.symm.trans hattribute)

theorem beyond_following_attribute {source : NodeSource} {node : NodeRef}
    (hkind : node.kind = .attribute) :
    source.beyond node .following =
      ((source.children node.doc node.parent).filter (·.kind ≠ .attribute)).flatMap
          (source.subtree node.doc) ++
        source.besideClimb node.doc .following node.parent := by
  rw [beyond, if_pos hkind]

theorem beyond_preceding_attribute {source : NodeSource} {node : NodeRef}
    (hkind : node.kind = .attribute) :
    source.beyond node .preceding = source.besideClimb node.doc .preceding node.parent := by
  rw [beyond, if_pos hkind]
  rfl

/-- For an attribute, going beside it and climbing comes to the same. -/
theorem mem_beyond_attribute_iff (h : store.Nested) (hd : d ∈ store.documents) {node : NodeRef}
    (hdoc : node.doc = d.doc) (hnode : d.Holds ⟨node.id, node.kind⟩)
    (hkind : node.kind = .attribute) :
    x ∈ store.source.beyond node direction ↔
      x ∈ store.source.besideClimb d.doc direction node.id := by
  have hnested := h.nested d hd
  have huses := hnode.uses hnested.identifies
  have howner : node.parent = d.doc.numbering.parentOf node.id := by rw [NodeRef.parent, hdoc]
  have hsides {slot : Slot} (hne : d.doc.numbering.parentOf node.id ≠ noNode)
      (hslot : d.Holds slot) (hskind : slot.kind ≠ .attribute)
      (hsparent : d.doc.numbering.parentOf slot.id = d.doc.numbering.parentOf node.id) :=
    lt_of_attribute hnested hnode hkind hslot hskind hne hsparent
  rw [besideClimb, dif_neg huses.ne_noNode, List.mem_append]
  cases direction with
  | following =>
    rw [beyond_following_attribute hkind, List.mem_append, hdoc, howner]
    refine or_congr_left ?_
    rw [List.mem_flatMap, List.mem_flatMap]
    refine exists_congr fun slot => and_congr_left fun _ => ?_
    rw [mem_siblings_iff h hd huses, List.mem_filter, decide_eq_true_iff]
    by_cases hne : d.doc.numbering.parentOf node.id = noNode
    · rw [hne, children, Numbering.window?, if_pos rfl]
      exact iff_of_false (fun hslot => List.not_mem_nil hslot.1) fun hslot => hslot.2.2.1 rfl
    · rw [mem_children_iff h hd (huses.parentOf (huses.parentOf_ne_noNode_iff.mp hne)).1]
      constructor
      · rintro ⟨⟨hslot, hsparent⟩, hskind⟩
        have hside := hsides hne hslot hskind hsparent
        exact ⟨hslot, hskind, hne, hsparent, by simpa [liesOn] using hside⟩
      · rintro ⟨hslot, hskind, -, hsparent, -⟩
        exact ⟨⟨hslot, hsparent⟩, hskind⟩
  | preceding =>
    rw [beyond_preceding_attribute hkind, hdoc, howner]
    refine (or_iff_right fun hx => ?_).symm
    obtain ⟨slot, hslot, -⟩ := List.mem_flatMap.mp hx
    obtain ⟨hslot, hskind, hne, hsparent, hside⟩ := (mem_siblings_iff h hd huses).mp hslot
    have hlt : slot.id < node.id := by simpa [liesOn] using hside
    exact Nat.lt_asymm hlt (hsides hne hslot hskind hsparent)

/-- A walk beyond a node visits what the numbering places beyond it. -/
theorem mem_beyond_iff (h : store.Nested) (hd : d ∈ store.documents) {node : NodeRef}
    (hdoc : node.doc = d.doc) (hnode : d.Holds ⟨node.id, node.kind⟩) :
    x ∈ store.source.beyond node direction ↔
      d.Holds x ∧ x.kind ≠ .attribute ∧ d.doc.numbering.isBeyond direction node.id x.id := by
  rw [← mem_besideClimb_iff h hd (hnode.uses (h.identifies hd))]
  by_cases hkind : node.kind = .attribute
  · exact mem_beyond_attribute_iff h hd hdoc hnode hkind
  · rw [beyond, if_neg hkind, hdoc]

end NodeSource

end TreeAxes
