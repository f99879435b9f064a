import TreeAxes.Proofs.LazyNodes.Iteration
import TreeAxes.Proofs.Step.Items

/-!
# Membership in lazy results

Membership is decided by climbing from a node to its context, iteration goes down from the roots.
Both agree, and leaving out nested roots loses nothing, except for the attributes of a context on
the axis of descendants and the nodes themselves. As roots such attributes are given out, but they
are not accepted, and below another context node they are not roots.
-/

namespace TreeAxes

namespace Partition

variable {p : Partition} {id : Nat}

theorem isSome_nearest_direct_iff_relates (h : p.Ready) (hid : p.doc.numbering.Uses id) :
    (p.nearest id true false).isSome ↔
      ∃ node ∈ p.nodes, Relation.child.Relates p.doc.numbering node.id id := by
  rw [Option.isSome_iff_exists]
  refine exists_congr fun node => Option.mem_toList.symm.trans ?_
  rw [mem_nearest_direct_iff h hid]
  exact and_congr_right fun _ => eq_comm

theorem isSome_nearest_iff_relates (h : p.Ready) (hid : p.doc.numbering.Uses id)
    (includeSelf : Bool) :
    (p.nearest id false includeSelf).isSome ↔
      ∃ node ∈ p.nodes, (Relation.descendant includeSelf).Relates p.doc.numbering node.id id := by
  rw [isSome_nearest_iff h hid]
  simp only [Relation.Relates, eq_comm (a := id)]

theorem contains_iff_relates (h : p.Ready) :
    p.contains id ↔ ∃ node ∈ p.nodes, Relation.self.Relates p.doc.numbering node.id id := by
  rw [contains, isSome_find?_iff h.ascending, ids, List.mem_map]
  exact exists_congr fun node => and_congr_right fun _ => eq_comm

end Partition

/-- A stored node that is reached, whatever from, has one kind. -/
theorem Store.Reaches.kind_unique {store : Store} {relation other : Relation}
    {kind kind' : NodeKind} {contexts contexts' : List NodeRef} {key : DocumentId × Nat}
    (h : store.Reaches relation kind contexts key) (hstore : store.Sound)
    (h' : store.Reaches other kind' contexts' key) : kind = kind' := by
  obtain ⟨d, hd, hid, hholds, -⟩ := h
  obtain ⟨e, he, heid, hholds', -⟩ := h'
  obtain rfl : d = e := hstore.eq_of_id hd he (hid.trans heid.symm)
  exact hholds.kind_eq (hstore.identifies hd) hholds' rfl

namespace LazyNodes

variable {store : Store} {relation : Relation} {input : NodeSet} {node : NodeRef} {axis : Axis}
  {test : NodeTest} {remember : Bool} {key : DocumentId × Nat}

@[simp] theorem ofContext_axis (axis : Axis) (test : NodeTest) (input : NodeSet)
    (remember : Bool) : (ofContext axis test input remember).axis = axis := rfl

@[simp] theorem ofContext_test (axis : Axis) (test : NodeTest) (input : NodeSet)
    (remember : Bool) : (ofContext axis test input remember).test = test := rfl

@[simp] theorem ofContext_context (axis : Axis) (test : NodeTest) (input : NodeSet)
    (remember : Bool) : (ofContext axis test input remember).context = input.sort := rfl

section

variable (h : store.Nested) (hinput : input.StoredIn store)
  (hrelation : axis.relation? = some relation)
  (hlazy : axis ∈ [.self, .child, .attribute, .descendant, .descendantOrSelf,
    .descendantAttribute])

include h hinput hrelation hlazy

/-- What reaches a stored node is looked up in the part of its document. -/
theorem reaches_iff_part? {d : StoredDocument} (hd : d ∈ store.documents) (hdoc : node.doc = d.doc)
    (hholds : d.Holds ⟨node.id, node.kind⟩) :
    store.Reaches relation node.kind input.nodes node.key ↔
      ∃ p, input.sort.part? node.doc.id = some p ∧
        ∃ context ∈ p.nodes, relation.Relates d.doc.numbering context.id node.id := by
  rw [← Store.reaches_congr h hinput.sort hinput fun key => NodeSet.mem_sort]
  constructor
  · rintro ⟨e, he, hid, -, context, hcontext, hcid, -, hrelates⟩
    obtain rfl : e = d := h.eq_of_id he hd (by rw [hid, ← hdoc]; rfl)
    obtain ⟨p, hp, hmem⟩ := NodeSet.mem_nodes_iff_part?.mp ⟨hcontext, hcid⟩
    exact ⟨p, hp, context, hmem, hrelates⟩
  · rintro ⟨p, hp, context, hmem, hrelates⟩
    obtain ⟨hcontext, hcid⟩ := NodeSet.mem_nodes_iff_part?.mpr ⟨p, hp, hmem⟩
    exact ⟨d, hd, by rw [← hdoc]; rfl, hholds, context, hcontext, hcid,
      admits_of_mem hrelation hlazy, hrelates⟩

/-- Accepted is what passes the test and is reached, an attribute on attribute axes and on the
axis of the nodes themselves only. -/
theorem accepts_iff (hnode : node.StoredIn store) :
    (ofContext axis test input remember).accepts node ↔
      test.matchesKind node.kind ∧ axis.Opens node.kind False ∧
        store.Reaches relation node.kind input.nodes node.key := by
  obtain ⟨d, hd, hdoc, hholds⟩ := hnode
  rw [reaches_iff_part? h hinput hrelation hlazy hd hdoc hholds, accepts, Bool.and_eq_true,
    ofContext_axis, ofContext_test, ofContext_context]
  refine and_congr_right fun _ => ?_
  cases hpart : input.sort.part? node.doc.id with
  | none => simp
  | some p =>
    have hpdoc : p.doc = d.doc := hinput.sort.part?_doc h hd (hdoc ▸ hpart)
    have hready := hinput.sort.ready h input.sort_order (NodeSet.part?_eq_some_iff.mp hpart).1
    have huses : p.doc.numbering.Uses node.id := hpdoc ▸ hholds.uses (h.identifies hd)
    have hparent := Partition.isSome_nearest_direct_iff_relates hready huses
    have hnearest := Partition.isSome_nearest_iff_relates hready huses
    have hself : p.contains node.id ↔ _ := Partition.contains_iff_relates hready
    simp only [Option.some_inj, exists_eq_left', ← hpdoc]
    cases axis with
    | self =>
      cases hrelation
      exact hself.trans (and_iff_right trivial).symm
    | child | «attribute» =>
      cases hrelation
      simp [Axis.Opens, ← hparent]
    | descendant | descendantOrSelf | descendantAttribute =>
      cases hrelation
      simp [Axis.Opens, ← hnearest]
    | _ => simp at hlazy

theorem yields_iff_asks :
    (ofContext axis test input remember).Yields store.source key ↔
      ∃ kind, Asks store axis test input.nodes key kind ∧
        store.Reaches relation kind input.nodes key := by
  have hgathers : (NodeSet.ofList ((ofContext axis test input remember).enumerate
      store.source)).Gathers store relation input.nodes (Asks store axis test input.nodes) :=
    gathers_enumerate h hinput hrelation hlazy
  rw [yields_iff, ← hgathers.mem_iff key, NodeSet.mem_ofList]
  simp only [eq_comm]

/-- Yielded is what passes the test and is reached, as far as the axis opens it up. -/
theorem yields_key_iff (hnode : node.StoredIn store) :
    (ofContext axis test input remember).Yields store.source node.key ↔
      test.matchesKind node.kind ∧
        axis.Opens node.kind (¬store.Reaches (.descendant false) node.kind input.nodes node.key) ∧
          store.Reaches relation node.kind input.nodes node.key := by
  rw [yields_iff_asks h hinput hrelation hlazy]
  constructor
  · rintro ⟨kind, ⟨hmatches, hopens⟩, hreaches⟩
    obtain rfl := hreaches.kind_eq h.sound hnode
    exact ⟨hmatches, hopens, hreaches⟩
  · rintro ⟨hmatches, hopens, hreaches⟩
    exact ⟨node.kind, ⟨hmatches, hopens⟩, hreaches⟩

end

/-- Whether a node is an attribute of a context which no other context node stands above. -/
def IsOutermostAttribute (input : NodeSet) (node : NodeRef) : Prop :=
  node.kind = .attribute ∧ node.key ∈ input ∧
    ∀ other ∈ input.nodes, other.doc.id = node.doc.id →
      ¬node.doc.numbering.isAncestor other.id node.id

/-- Below a node is what has a context node of its document above it. -/
theorem reaches_below_iff (h : store.Nested) (hnode : node.StoredIn store) :
    store.Reaches (.descendant false) node.kind input.nodes node.key ↔
      ∃ other ∈ input.nodes, other.doc.id = node.doc.id ∧
        node.doc.numbering.isAncestor other.id node.id := by
  obtain ⟨d, hd, hdoc, hholds⟩ := hnode
  rw [hdoc]
  constructor
  · rintro ⟨e, he, hid, -, other, hother, hoid, -, ⟨hself, -⟩ | habove⟩
    · cases hself
    · obtain rfl : e = d := h.eq_of_id he hd (by rw [hid, ← hdoc]; rfl)
      exact ⟨other, hother, hoid.trans hid.symm, habove⟩
  · rintro ⟨other, hother, hoid, habove⟩
    have hid : d.doc.id = node.key.1 := congrArg Document.id hdoc.symm
    exact ⟨d, hd, hid, hholds, other, hother, hoid.trans hid, trivial, .inr habove⟩

theorem isOutermostAttribute_iff (h : store.Nested) (hnode : node.StoredIn store) :
    IsOutermostAttribute input node ↔
      node.kind = .attribute ∧ node.key ∈ input ∧
        ¬store.Reaches (.descendant false) node.kind input.nodes node.key := by
  rw [IsOutermostAttribute, reaches_below_iff h hnode]
  push Not
  rfl

/-- Reached on the axis of descendants and the nodes themselves is what the context holds, or what
stands below it. -/
theorem reaches_orSelf_iff (hnode : node.StoredIn store) :
    store.Reaches (.descendant true) node.kind input.nodes node.key ↔
      node.key ∈ input ∨ store.Reaches (.descendant false) node.kind input.nodes node.key := by
  obtain ⟨d, hd, hdoc, hholds⟩ := hnode
  have hid : d.doc.id = node.key.1 := congrArg Document.id hdoc.symm
  constructor
  · rintro ⟨e, he, heid, hkind, other, hother, hoid, -, ⟨-, hself⟩ | habove⟩
    · exact .inl (NodeSet.mem_iff_exists_node.mpr ⟨other, hother, Prod.ext hoid hself.symm⟩)
    · exact .inr ⟨e, he, heid, hkind, other, hother, hoid, trivial, .inr habove⟩
  · rintro (hmem | ⟨e, he, heid, hkind, other, hother, hoid, -, ⟨hself, -⟩ | habove⟩)
    · obtain ⟨other, hother, hkey⟩ := NodeSet.mem_iff_exists_node.mp hmem
      obtain ⟨hodoc, hoid⟩ := Prod.ext_iff.mp hkey
      exact ⟨d, hd, hid, hholds, other, hother, hodoc, trivial, .inl ⟨rfl, hoid.symm⟩⟩
    · cases hself
    · exact ⟨e, he, heid, hkind, other, hother, hoid, trivial, .inr habove⟩

theorem exists_relation_of_mem (hlazy : axis ∈ [.self, .child, .attribute, .descendant,
    .descendantOrSelf, .descendantAttribute]) : ∃ relation, axis.relation? = some relation := by
  cases axis with
  | self | child | «attribute» | descendant | descendantOrSelf | descendantAttribute =>
    exact ⟨_, rfl⟩
  | _ => simp at hlazy

/-- An iteration yields what is accepted, and besides, on the axis of descendants and the nodes
themselves, the attributes of its context that no other context node stands above. -/
theorem yields_iff_accepts (h : store.Nested) (hinput : input.StoredIn store)
    (hlazy : axis ∈ [.self, .child, .attribute, .descendant, .descendantOrSelf,
      .descendantAttribute])
    (test : NodeTest) (remember : Bool) (hnode : node.StoredIn store) :
    (ofContext axis test input remember).Yields store.source node.key ↔
      (ofContext axis test input remember).accepts node ∨
        axis = .descendantOrSelf ∧ test.matchesKind .attribute ∧
          IsOutermostAttribute input node := by
  obtain ⟨relation, hrelation⟩ := exists_relation_of_mem hlazy
  rw [yields_key_iff h hinput hrelation hlazy hnode, accepts_iff h hinput hrelation hlazy hnode,
    isOutermostAttribute_iff h hnode]
  by_cases haxis : axis = .descendantOrSelf
  · subst haxis
    cases hrelation
    rw [reaches_orSelf_iff hnode]
    by_cases hkind : node.kind = .attribute
    · simp only [Axis.Opens, hkind]
      tauto
    · simp [Axis.Opens, hkind]
  · have hopens (own : Prop) : axis.Opens node.kind own ↔ axis.Opens node.kind False :=
      ⟨fun hown => hown.imp fun heq => absurd heq haxis,
        fun hown => hown.imp fun heq => absurd heq haxis⟩
    rw [hopens]
    exact (or_iff_left fun hboth => haxis hboth.1).symm

/-- The attribute of the root of the first document. -/
def loneAttribute : NodeSet := .ofList (Plan.twins.named ⟨1⟩ "x")

theorem storedIn_loneAttribute : loneAttribute.StoredIn Plan.twins :=
  NodeSet.storedIn_ofList Plan.nested_twins fun _ => Store.storedIn_named Plan.nested_twins

theorem exists_loneAttribute : ∃ node ∈ loneAttribute.nodes, node.kind = .attribute ∧
    ¬Plan.twins.Reaches (.descendant false) node.kind loneAttribute.nodes node.key ∧
      Plan.twins.Reaches (.descendant true) node.kind loneAttribute.nodes node.key := by
  decide +kernel

theorem yields_iff_accepts_loneAttribute :
    Plan.twins.Nested ∧ loneAttribute.StoredIn Plan.twins ∧
      ∃ node ∈ loneAttribute.nodes, node.StoredIn Plan.twins ∧
      ((ofContext .descendantOrSelf .anyNode loneAttribute true).Yields Plan.twins.source
          node.key ↔
        (ofContext .descendantOrSelf .anyNode loneAttribute true).accepts node ∨
          Axis.descendantOrSelf = .descendantOrSelf ∧ NodeTest.anyNode.matchesKind .attribute ∧
            IsOutermostAttribute loneAttribute node) := by
  obtain ⟨node, hnode, -⟩ := exists_loneAttribute
  have hstored := storedIn_loneAttribute.of_mem_nodes hnode
  exact ⟨Plan.nested_twins, storedIn_loneAttribute, node, hnode, hstored, yields_iff_accepts
    Plan.nested_twins storedIn_loneAttribute (by decide) .anyNode true hstored⟩

/-- An attribute that is its own context is yielded and not accepted. -/
theorem yields_unaccepted_loneAttribute :
    Plan.twins.Nested ∧ loneAttribute.StoredIn Plan.twins ∧
      ∃ node ∈ loneAttribute.nodes,
        (ofContext .descendantOrSelf .anyAttribute loneAttribute false).Yields Plan.twins.source
            node.key ∧
          ¬(ofContext .descendantOrSelf .anyAttribute loneAttribute false).accepts node := by
  obtain ⟨node, hnode, hkind, houtermost, hreaches⟩ := exists_loneAttribute
  have hstored := storedIn_loneAttribute.of_mem_nodes hnode
  have hmatches : NodeTest.anyAttribute.matchesKind node.kind := by
    rw [hkind]
    rfl
  refine ⟨Plan.nested_twins, storedIn_loneAttribute, node, hnode, ?_, fun haccepts => ?_⟩
  · exact (yields_key_iff Plan.nested_twins storedIn_loneAttribute rfl (by decide) hstored).mpr
      ⟨hmatches, fun _ => houtermost, hreaches⟩
  · exact ((accepts_iff Plan.nested_twins storedIn_loneAttribute rfl (by decide) hstored).mp
      haccepts).2.1 hkind

/-- An iteration over a whole context yields what those over its nodes yield, except, on the axis of
descendants and the nodes themselves, attributes that stand below a node of the context. -/
theorem yields_iff_alone (h : store.Nested) (hinput : input.StoredIn store)
    (hlazy : axis ∈ [.self, .child, .attribute, .descendant, .descendantOrSelf,
      .descendantAttribute])
    (test : NodeTest) (remember : Bool) (key : DocumentId × Nat) :
    (ofContext axis test input remember).Yields store.source key ↔
      (∃ context ∈ input.nodes,
        (ofContext axis test (.ofList [context]) remember).Yields store.source key) ∧
      ¬(axis = .descendantOrSelf ∧
        store.Reaches (.descendant false) .attribute input.nodes key) := by
  obtain ⟨relation, hrelation⟩ := exists_relation_of_mem hlazy
  have halone {context : NodeRef} (hcontext : context ∈ input.nodes) :
      (ofContext axis test (.ofList [context]) remember).Yields store.source key ↔
        ∃ kind, Asks store axis test [context] key kind ∧
          store.Reaches relation kind [context] key :=
    yields_iff_asks h (Plan.storedIn_single h.sound (hinput.of_mem_nodes hcontext)) hrelation hlazy
  rw [yields_iff_asks h hinput hrelation hlazy]
  constructor
  · rintro ⟨kind, ⟨hmatches, hopens⟩, hreaches⟩
    obtain ⟨context, hcontext, hfrom⟩ := Store.reaches_iff_exists.mp hreaches
    refine ⟨⟨context, hcontext, (halone hcontext).mpr ⟨kind, ⟨hmatches, ?_⟩, hfrom⟩⟩, ?_⟩
    · refine hopens.imp fun _ _ hnot hbelow => hnot ?_
      exact Store.reaches_iff_exists.mpr ⟨context, hcontext, hbelow⟩
    · rintro ⟨rfl, hbelow⟩
      obtain rfl := hreaches.kind_unique h.sound hbelow
      exact hopens rfl hbelow
  · rintro ⟨⟨context, hcontext, hyields⟩, hnot⟩
    obtain ⟨kind, ⟨hmatches, hopens⟩, hfrom⟩ := (halone hcontext).mp hyields
    refine ⟨kind, ⟨hmatches, ?_⟩, Store.reaches_iff_exists.mpr ⟨context, hcontext, hfrom⟩⟩
    refine hopens.imp fun haxis hkind _ hbelow => hnot ⟨haxis, ?_⟩
    rwa [hkind] at hbelow

/-- The root of the first document and its attribute. -/
def rootAndAttribute : NodeSet := .ofList (Plan.twins.named ⟨1⟩ "r" ++ Plan.twins.named ⟨1⟩ "x")

theorem storedIn_rootAndAttribute : rootAndAttribute.StoredIn Plan.twins := by
  refine NodeSet.storedIn_ofList Plan.nested_twins fun node hnode => ?_
  obtain hnode | hnode := List.mem_append.mp hnode
  all_goals exact Store.storedIn_named Plan.nested_twins hnode

theorem yields_iff_alone_rootAndAttribute :
    Plan.twins.Nested ∧ rootAndAttribute.StoredIn Plan.twins ∧
      ((ofContext .descendantOrSelf .anyNode rootAndAttribute true).Yields Plan.twins.source
          (⟨1⟩, 2) ↔
        (∃ context ∈ rootAndAttribute.nodes,
          (ofContext .descendantOrSelf .anyNode (.ofList [context]) true).Yields Plan.twins.source
            (⟨1⟩, 2)) ∧
        ¬(Axis.descendantOrSelf = .descendantOrSelf ∧
          Plan.twins.Reaches (.descendant false) .attribute rootAndAttribute.nodes
            (⟨1⟩, 2))) :=
  ⟨Plan.nested_twins, storedIn_rootAndAttribute, yields_iff_alone Plan.nested_twins
    storedIn_rootAndAttribute (by decide) .anyNode true (⟨1⟩, 2)⟩

/-- The attribute of a root is yielded alone, and not with the root. -/
theorem yields_alone_rootAndAttribute :
    Plan.twins.Nested ∧ rootAndAttribute.StoredIn Plan.twins ∧
      ∃ context ∈ rootAndAttribute.nodes,
        (ofContext .descendantOrSelf .anyAttribute (.ofList [context]) false).Yields
            Plan.twins.source context.key ∧
          ¬(ofContext .descendantOrSelf .anyAttribute rootAndAttribute false).Yields
            Plan.twins.source context.key := by
  have hcontext : ∃ context ∈ rootAndAttribute.nodes, context.kind = .attribute ∧
      ¬Plan.twins.Reaches (.descendant false) context.kind (NodeSet.ofList [context]).nodes
        context.key ∧
      Plan.twins.Reaches (.descendant true) context.kind (NodeSet.ofList [context]).nodes
        context.key ∧
      Plan.twins.Reaches (.descendant false) context.kind rootAndAttribute.nodes
        context.key := by
    decide +kernel
  obtain ⟨context, hmem, hkind, houtermost, hreaches, hbelow⟩ := hcontext
  have hstored := storedIn_rootAndAttribute.of_mem_nodes hmem
  have hmatches : NodeTest.anyAttribute.matchesKind context.kind := by
    rw [hkind]
    rfl
  have halone := Plan.storedIn_single Plan.nested_twins.sound hstored
  refine ⟨Plan.nested_twins, storedIn_rootAndAttribute, context, hmem, ?_, fun hyields => ?_⟩
  · exact (yields_key_iff Plan.nested_twins halone rfl (by decide) hstored).mpr
      ⟨hmatches, fun _ => houtermost, hreaches⟩
  · exact ((yields_key_iff Plan.nested_twins storedIn_rootAndAttribute rfl (by decide) hstored).mp
      hyields).2.1 hkind hbelow

end LazyNodes

end TreeAxes
