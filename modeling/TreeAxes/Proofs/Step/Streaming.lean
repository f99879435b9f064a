import TreeAxes.Proofs.Step.Gathering

/-!
# What streaming gathers

A wildcard step goes over its axis without the index. Its lazy results leave out context nodes
that stand below another one, its other results are walked or climbed from every context node;
all of them gather what the relation of the axis reaches, of the kinds that the axis opens up and
that pass the test. If they remember, they keep all origins.
-/

namespace TreeAxes

/-- The test for all nodes of an indexed kind. -/
def IndexedKind.testKind : IndexedKind → TestKind
  | .element => .element
  | .attribute => .attribute

/-- Whether an axis leads to nodes of a kind. Downwards there are only attributes, or none but the
context nodes themselves: `own` says whether the node is one of these. -/
def Axis.Opens (axis : Axis) (kind : NodeKind) (own : Prop) : Prop :=
  match axis with
  | .child | .descendant => kind ≠ .attribute
  | .attribute | .descendantAttribute => kind = .attribute
  | .descendantOrSelf => kind = .attribute → own
  | _ => True

variable {store : Store} {d : StoredDocument} {relation : Relation} {kind : NodeKind}
  {contexts : List NodeRef} {key : DocumentId × Nat} {c : ContextNode}

theorem Axis.Opens.imp {axis : Axis} {own own' : Prop} (h : axis.Opens kind own)
    (hown : axis = .descendantOrSelf → kind = .attribute → own → own') : axis.Opens kind own' := by
  cases axis with
  | descendantOrSelf => exact fun hkind => hown rfl hkind (h hkind)
  | _ => exact h

/-- Attribute axes open up the attributes, the others whatever is not an attribute. -/
theorem Axis.opens_of_iff {axis : Axis} {own : Prop}
    (h : kind = .attribute ↔ axis.isAttributeAxis) : axis.Opens kind own := by
  cases axis with
  | child | descendant => exact fun hkind => nomatch h.mp hkind
  | descendantOrSelf => exact fun hkind => nomatch h.mp hkind
  | «attribute» | descendantAttribute => exact h.mpr rfl
  | _ => trivial

theorem Axis.not_isAttributeAxis {axis : Axis} (h : axis.elementsOnly) :
    ¬axis.isAttributeAxis := by
  cases axis with
  | «attribute» | descendantAttribute => cases h
  | _ => exact nofun

theorem NodeTest.matchesKind_iff {test : NodeTest} {kind : IndexedKind}
    (h : test.kind = kind.testKind) {k : NodeKind} : test.matchesKind k ↔ k = kind.nodeKind := by
  rw [matchesKind, h]
  cases kind <;> exact decide_eq_true_iff

/-- An element passes a test that some element passes, for only names tell elements apart. -/
theorem NodeTest.matchesKind_element {test : NodeTest} (h : test.mayMatchElement) :
    test.matchesKind .element := by
  rw [mayMatchElement] at h
  rw [matchesKind]
  split at h
  · next hkind => rw [hkind]
  · next hkind => rw [hkind]; rfl
  · cases h

/-! ## Lazy results -/

namespace LazyNodes

variable {v : LazyNodes} {root : NodeRef} {slot : Slot} {input : NodeSet}

@[simp] theorem makeRef_doc (v : LazyNodes) (root : NodeRef) (slot : Slot) :
    (v.makeRef root slot).doc = root.doc := by
  rw [makeRef]
  split
  · rfl
  · simp

@[simp] theorem makeRef_id (v : LazyNodes) (root : NodeRef) (slot : Slot) :
    (v.makeRef root slot).id = slot.id := by
  rw [makeRef]
  split
  · rfl
  · simp

@[simp] theorem makeRef_kind (v : LazyNodes) (root : NodeRef) (slot : Slot) :
    (v.makeRef root slot).kind = slot.kind := by
  rw [makeRef]
  split
  · rfl
  · simp

@[simp] theorem makeRef_key (v : LazyNodes) (root : NodeRef) (slot : Slot) :
    (v.makeRef root slot).key = (root.doc.id, slot.id) := by
  simp [NodeRef.key]

theorem mem_realize_iff {source : NodeSource} :
    key ∈ v.realize source ↔ key ∈ NodeSet.ofList (v.enumerate source) := NodeSet.mem_sort

theorem eq_iff_id_eq (h : d.Nested) {a b : Slot} (ha : d.Holds a) (hb : d.Holds b) :
    a = b ↔ a.id = b.id := by
  constructor
  · rintro rfl
    rfl
  · intro hid
    cases a
    cases b
    have hkind := ha.kind_eq h.identifies hb hid
    simp_all

/-- Over the axes that are enumerated lazily, a root reaches the nodes in its relation of the
kinds that the axis opens up. -/
theorem mem_reach_iff (h : store.Nested) (hd : d ∈ store.documents) (hdoc : root.doc = d.doc)
    (hroot : d.Holds ⟨root.id, root.kind⟩) (hrelation : v.axis.relation? = some relation)
    (hlazy : v.axis ∈ [.self, .child, .attribute, .descendant, .descendantOrSelf,
      .descendantAttribute]) :
    slot ∈ v.reach store.source root ↔
      d.Holds slot ∧ v.axis.Opens slot.kind (slot.id = root.id) ∧
        relation.Relates d.doc.numbering root.id slot.id := by
  have hself (hslot : d.Holds slot) : slot = ⟨root.id, root.kind⟩ ↔ slot.id = root.id :=
    eq_iff_id_eq (h.nested d hd) hslot hroot
  rw [reach, hdoc]
  cases haxis : v.axis with
  | self =>
    rw [haxis] at hrelation
    cases hrelation
    rw [List.mem_singleton]
    constructor
    · rintro rfl
      exact ⟨hroot, trivial, rfl⟩
    · rintro ⟨hslot, -, hid⟩
      exact (hself hslot).mpr hid
  | child =>
    rw [haxis] at hrelation
    cases hrelation
    rw [NodeSource.mem_contents_iff h hd hroot]
    exact and_congr_right fun _ => and_comm
  | «attribute» =>
    rw [haxis] at hrelation
    cases hrelation
    rw [NodeSource.mem_attributes_iff h hd hroot]
    exact and_congr_right fun _ => and_comm
  | descendant =>
    rw [haxis] at hrelation
    cases hrelation
    rw [NodeSource.mem_contents_subtrees_iff h hd hroot]
    simp [Relation.Relates, Axis.Opens]
  | descendantOrSelf =>
    rw [haxis] at hrelation
    cases hrelation
    rw [NodeSource.mem_subtree_iff h hd hroot]
    refine and_congr_right fun hslot => ?_
    rw [hself hslot]
    constructor
    · rintro (hid | ⟨hkind, hbelow⟩)
      · exact ⟨fun _ => hid, .inl ⟨rfl, hid⟩⟩
      · exact ⟨fun hattribute => absurd hattribute hkind, .inr hbelow⟩
    · rintro ⟨hopens, ⟨-, hid⟩ | hbelow⟩
      · exact .inl hid
      · by_cases hkind : slot.kind = .attribute
        · exact .inl (hopens hkind)
        · exact .inr ⟨hkind, hbelow⟩
  | descendantAttribute =>
    rw [haxis] at hrelation
    cases hrelation
    rw [NodeSource.mem_attributesWithin_iff h hd hroot]
    simp [Relation.Relates, Axis.Opens]
  | ancestor | ancestorOrSelf | parent | followingSibling | precedingSibling | following
  | preceding | namespaceAxis =>
    rw [haxis] at hlazy
    simp at hlazy

/-- Outermost is what no node of the set stands above. -/
theorem isOutermost_iff (h : store.Nested) (hinput : input.StoredIn store)
    (hsorted : input.order = .byId) (hroot : root.StoredIn store) :
    isOutermost input root ↔
      ¬store.Reaches (.descendant false) root.kind input.nodes root.key := by
  obtain ⟨d, hd, hdoc, hholds⟩ := hroot
  have hreaches : store.Reaches (.descendant false) root.kind input.nodes root.key ↔
      ∃ node ∈ input.nodes, node.doc.id = d.doc.id ∧
        d.doc.numbering.isAncestor node.id root.id := by
    constructor
    · rintro ⟨e, he, heid, -, node, hnode, hid, -, ⟨hself, -⟩ | habove⟩
      · cases hself
      · obtain rfl : e = d := h.eq_of_id he hd (by rw [heid, ← hdoc]; rfl)
        exact ⟨node, hnode, hid.trans heid.symm, habove⟩
    · rintro ⟨node, hnode, hid, habove⟩
      have hrid : d.doc.id = root.key.1 := congrArg Document.id hdoc.symm
      exact ⟨d, hd, hrid, hholds, node, hnode, hid.trans hrid, trivial, .inr habove⟩
  rw [hreaches, isOutermost, hdoc]
  cases hpart : input.part? d.doc.id with
  | none =>
    refine iff_of_true rfl ?_
    rintro ⟨node, hnode, hid, -⟩
    obtain ⟨p, hp, -⟩ := NodeSet.mem_nodes_iff_part?.mp ⟨hnode, hid⟩
    rw [hpart] at hp
    cases hp
  | some p =>
    have hpdoc := hinput.part?_doc h hd hpart
    have hready := hinput.ready h hsorted (NodeSet.part?_eq_some_iff.mp hpart).1
    have hmem (node : NodeRef) :
        node ∈ p.nodes ↔ node ∈ input.nodes ∧ node.doc.id = d.doc.id := by
      simp only [NodeSet.mem_nodes_iff_part?, hpart, Option.some_inj, exists_eq_left']
    have hnearest := Partition.isSome_nearest_iff hready
      (hpdoc ▸ hholds.uses (h.identifies hd)) false
    simp only [Bool.false_eq_true, false_and, false_or, hpdoc, hmem, and_assoc] at hnearest
    rw [← hnearest, Option.all_some, Option.isNone_iff_eq_none, Option.isSome_iff_ne_none, not_not]

/-- Of a context node and those above it, one is the root of an enumeration. -/
theorem exists_outermost (h : store.Nested) (hinput : input.StoredIn store)
    (hsorted : input.order = .byId) {context : NodeRef} (hcontext : context ∈ input.nodes) :
    ∃ root ∈ input.nodes, isOutermost input root ∧ root.doc = context.doc ∧
      (root = context ∨ context.doc.numbering.isAncestor root.id context.id) := by
  induction hlevel : context.level using Nat.strong_induction_on generalizing context with
  | _ level ih =>
    have hstored := hinput.of_mem_nodes hcontext
    by_cases houtermost : isOutermost input context
    · exact ⟨context, hcontext, houtermost, rfl, .inl rfl⟩
    · rw [isOutermost_iff h hinput hsorted hstored, not_not] at houtermost
      obtain ⟨d, hd, hdoc, hholds⟩ := hstored
      obtain ⟨e, he, heid, -, a, hainput, haid, -, ⟨hself, -⟩ | hancestor⟩ := houtermost
      · cases hself
      obtain rfl : e = d := h.eq_of_id he hd (by rw [heid, ← hdoc]; rfl)
      have huses := hholds.uses (h.identifies hd)
      have hadoc : a.doc = e.doc := by
        obtain ⟨e', he', hadoc, -⟩ := hinput.of_mem_nodes hainput
        rw [hadoc, h.eq_of_id he' hd (by rw [← hadoc, haid, heid])]
      have hlt : a.level < level := by
        rw [← hlevel, NodeRef.level, NodeRef.level, hadoc, hdoc]
        exact (Numbering.isAncestor_iff.mp hancestor).1
      obtain ⟨root, hroot, houtermost, hrdoc, hrabove⟩ := ih a.level hlt hainput rfl
      rw [hadoc] at hrdoc hrabove
      refine ⟨root, hroot, houtermost, hrdoc.trans hdoc.symm, .inr ?_⟩
      rw [hdoc]
      obtain rfl | hrabove := hrabove
      · exact hancestor
      · exact Numbering.isAncestor_trans huses hrabove hancestor

theorem roots_ofContext (axis : Axis) (test : NodeTest) (input : NodeSet) (remember : Bool) :
    (ofContext axis test input remember).roots =
      if axis.spansSubtree then input.sort.toDocumentOrder.filter (isOutermost input.sort)
      else input.sort.toDocumentOrder := rfl

theorem mem_toDocumentOrder_of_mem_roots {axis : Axis} {test : NodeTest} {remember : Bool}
    (hroot : root ∈ (ofContext axis test input remember).roots) :
    root ∈ input.sort.toDocumentOrder := by
  rw [roots_ofContext] at hroot
  split at hroot
  · exact (List.mem_filter.mp hroot).1
  · exact hroot

theorem storedIn_of_mem_roots (hinput : input.StoredIn store) {axis : Axis} {test : NodeTest}
    {remember : Bool} (hroot : root ∈ (ofContext axis test input remember).roots) :
    root.StoredIn store :=
  hinput.sort.sortInDocumentOrder.of_mem_nodes (mem_toDocumentOrder_of_mem_roots hroot)

/-- A root is a context node, but for what it remembers. -/
theorem exists_same_of_mem_roots (h : store.Nested) (hinput : input.StoredIn store) {axis : Axis}
    {test : NodeTest} {remember : Bool}
    (hroot : root ∈ (ofContext axis test input remember).roots) :
    ∃ anchor ∈ input.nodes, anchor.doc = root.doc ∧ anchor.id = root.id ∧
      anchor.kind = root.kind :=
  hinput.sort.sortInDocumentOrder.exists_same hinput h (fun key => by simp)
    (mem_toDocumentOrder_of_mem_roots hroot)

/-- An axis that goes through whole subtrees leads to what is below a node, and possibly to the node
itself. -/
theorem relation_eq_of_spansSubtree {axis : Axis} (hspans : axis.spansSubtree)
    (hrelation : axis.relation? = some relation) :
    relation = .descendant (decide (axis = .descendantOrSelf)) := by
  cases axis with
  | descendant | descendantOrSelf | descendantAttribute =>
    cases hrelation
    rfl
  | _ => cases hspans

/-- What is below a node is below those above it. -/
theorem relates_of_isAncestor {n : Numbering} {includeSelf : Bool} {above context id : Nat}
    (hid : n.Uses id) (habove : n.isAncestor above context)
    (hrelates : (Relation.descendant includeSelf).Relates n context id) :
    (Relation.descendant includeSelf).Relates n above id := by
  obtain ⟨-, hself⟩ | hbelow := hrelates
  · exact .inr (hself ▸ habove)
  · exact .inr (Numbering.isAncestor_trans hid habove hbelow)

/-- Leaving out context nodes below others loses nothing on the way through whole subtrees. -/
theorem reaches_roots_iff (h : store.Nested) (hinput : input.StoredIn store) {axis : Axis}
    {test : NodeTest} {remember : Bool} (hrelation : axis.relation? = some relation) :
    store.Reaches relation kind (ofContext axis test input remember).roots key ↔
      store.Reaches relation kind input.nodes key := by
  have hall : store.Reaches relation kind input.sort.toDocumentOrder key ↔
      store.Reaches relation kind input.nodes key :=
    Store.reaches_congr h hinput.sort.sortInDocumentOrder hinput fun key => by simp
  rw [roots_ofContext, ← hall]
  split
  · next hspans =>
    constructor
    · exact fun hreaches => hreaches.mono fun context hcontext =>
        ⟨context, (List.mem_filter.mp hcontext).1, rfl, rfl, rfl⟩
    · rw [hall, Store.reaches_congr h hinput hinput.sort fun key => NodeSet.mem_sort.symm]
      rintro ⟨d, hd, hid, hkind, context, hcontext, hcid, -, hrelates⟩
      obtain ⟨e, he, hcdoc, hcholds⟩ := hinput.sort.of_mem_nodes hcontext
      have heq : e = d := h.eq_of_id he hd (by rw [← hcdoc, hcid, hid])
      subst heq
      obtain ⟨root, hroot, houtermost, hrdoc, habove⟩ :=
        exists_outermost h hinput.sort input.sort_order hcontext
      -- the set in document order has the root again, with the same key
      obtain ⟨other, hother, hodoc, hoid, hokind⟩ :=
        hinput.sort.exists_same hinput.sort.sortInDocumentOrder h (fun key => by simp) hroot
      have houtermost' : isOutermost input.sort other := by
        rw [isOutermost, hodoc, hoid]
        exact houtermost
      have huses := hkind.uses (h.identifies he)
      obtain rfl := relation_eq_of_spansSubtree hspans hrelation
      refine ⟨e, he, hid, hkind, other, List.mem_filter.mpr ⟨hother, houtermost'⟩,
        by rw [hodoc, hrdoc, hcid], trivial, ?_⟩
      rw [hoid]
      obtain rfl | habove := habove
      · exact hrelates
      · rw [hcdoc] at habove
        exact relates_of_isAncestor huses habove hrelates
  · exact Iff.rfl

/-- Lazy results look for nodes below, or for the context nodes themselves, whatever their kind. -/
theorem admits_of_mem {axis : Axis} (hrelation : axis.relation? = some relation)
    (hlazy : axis ∈ [.self, .child, .attribute, .descendant, .descendantOrSelf,
      .descendantAttribute]) {context : NodeKind} : relation.Admits context kind := by
  cases axis with
  | self | child | «attribute» | descendant | descendantOrSelf | descendantAttribute =>
    cases hrelation
    trivial
  | _ => simp at hlazy

/-- Lazy results that do not go through subtrees lead to a node from one context node only. -/
theorem eq_of_relates {axis : Axis} (hspans : ¬axis.spansSubtree)
    (hrelation : axis.relation? = some relation)
    (hlazy : axis ∈ [.self, .child, .attribute, .descendant, .descendantOrSelf,
      .descendantAttribute]) {n : Numbering} {a b id : Nat} (ha : relation.Relates n a id)
    (hb : relation.Relates n b id) : a = b := by
  cases axis with
  | self | child | «attribute» =>
    cases hrelation
    exact ha.symm.trans hb
  | descendant | descendantOrSelf | descendantAttribute => cases hspans rfl
  | _ => simp at hlazy

/-- What a lazy result asks for. -/
def Asks (store : Store) (axis : Axis) (test : NodeTest) (contexts : List NodeRef)
    (key : DocumentId × Nat) (kind : NodeKind) : Prop :=
  test.matchesKind kind ∧
    axis.Opens kind (¬store.Reaches (.descendant false) kind contexts key)

section

variable (h : store.Nested) (hinput : input.StoredIn store) {axis : Axis} {test : NodeTest}
  {remember : Bool} (hrelation : axis.relation? = some relation)
  (hlazy : axis ∈ [.self, .child, .attribute, .descendant, .descendantOrSelf,
    .descendantAttribute])

include h hinput hrelation hlazy

/-- What one root contributes to an enumeration. -/
theorem contributes_root (hroot : root ∈ (ofContext axis test input remember).roots) :
    NodeSet.Contributes store relation (Asks store axis test input.nodes) root
      (((ofContext axis test input remember).reach store.source root).filter
        (test.matchesKind ·.kind) |>.map ((ofContext axis test input remember).makeRef root)) := by
  have hstored := storedIn_of_mem_roots hinput hroot
  obtain ⟨d, hd, hdoc, hholds⟩ := id hstored
  have hreach (slot : Slot) :
      slot ∈ (ofContext axis test input remember).reach store.source root ↔
        d.Holds slot ∧ axis.Opens slot.kind (slot.id = root.id) ∧
          relation.Relates d.doc.numbering root.id slot.id :=
    mem_reach_iff h hd hdoc hholds hrelation hlazy
  have hdid : d.doc.id = root.doc.id := congrArg Document.id hdoc.symm
  constructor
  · intro ref href
    obtain ⟨slot, hslot, rfl⟩ := List.mem_map.mp href
    obtain ⟨hslot, hmatches⟩ := List.mem_filter.mp hslot
    obtain ⟨hslotholds, hopens, hrelates⟩ := (hreach slot).mp hslot
    rw [NodeRef.StoredIn, makeRef_doc, makeRef_id, makeRef_kind, makeRef_key]
    refine ⟨⟨d, hd, hdoc, hslotholds⟩, ⟨hmatches, ?_⟩,
      (Store.reaches_singleton_iff h hd hdoc).mpr ⟨hdid, hslotholds,
        admits_of_mem hrelation hlazy, hrelates⟩⟩
    -- an attribute is only reached as a root, and then no context node stands above it
    refine hopens.imp fun haxis _ hown => ?_
    rw [haxis, roots_ofContext] at hroot
    have houtermost := (isOutermost_iff h hinput.sort input.sort_order hstored).mp
      (List.mem_filter.mp hroot).2
    rw [Store.reaches_congr h hinput.sort hinput fun _ => NodeSet.mem_sort] at houtermost
    have hkind : slot.kind = root.kind := hslotholds.kind_eq (h.identifies hd) hholds hown
    rw [hown, hkind]
    exact houtermost
  · rintro key kind ⟨hmatches, hopens⟩ hreaches
    obtain ⟨hid, hkeyholds, -, hrelates⟩ := (Store.reaches_singleton_iff h hd hdoc).mp hreaches
    have hown : axis.Opens kind (key.2 = root.id) := by
      refine hopens.imp fun haxis _ hnot => ?_
      subst haxis
      cases hrelation
      obtain ⟨-, hself⟩ | hbelow := hrelates
      · exact hself
      · obtain ⟨anchor, hanchor, hsame⟩ := exists_same_of_mem_roots h hinput hroot
        have hbelow : store.Reaches (.descendant false) kind [root] key :=
          (Store.reaches_singleton_iff h hd hdoc).mpr ⟨hid, hkeyholds, trivial, .inr hbelow⟩
        refine absurd (hbelow.mono fun context hcontext => ?_) hnot
        rw [List.mem_singleton.mp hcontext]
        exact ⟨anchor, hanchor, hsame⟩
    refine ⟨_, List.mem_map.mpr ⟨⟨key.2, kind⟩, List.mem_filter.mpr ⟨?_, hmatches⟩, rfl⟩, ?_⟩
    · exact (hreach _).mpr ⟨hkeyholds, hown, hrelates⟩
    · rw [makeRef_key, ← hdid, hid]

/-- A lazy result enumerates what the relation of its axis reaches. -/
theorem gathers_enumerate :
    (NodeSet.ofList ((ofContext axis test input remember).enumerate store.source)).Gathers store
      relation input.nodes (Asks store axis test input.nodes) := by
  have hroots : (NodeSet.ofList
      ((ofContext axis test input remember).enumerate store.source)).Gathers store relation
        (ofContext axis test input remember).roots (Asks store axis test input.nodes) :=
    NodeSet.gathers_ofList_flatMap h fun _ => contributes_root h hinput hrelation hlazy
  refine ⟨hroots.stored, fun key => (hroots.mem_iff key).trans ?_⟩
  simp only [reaches_roots_iff h hinput hrelation]

end

section

variable (h : store.Nested) (hinput : input.StoredIn store) {axis : Axis} {test : NodeTest}
  (hrelation : axis.relation? = some relation)
  (hlazy : axis ∈ [.self, .child, .attribute, .descendant, .descendantOrSelf,
    .descendantAttribute])

include h hinput hrelation hlazy

/-- What a node remembers when a lazy result remembers. -/
theorem mem_context_makeRef_iff (hroot : root ∈ (ofContext axis test input true).roots)
    (hslot : slot ∈ (ofContext axis test input true).reach store.source root) :
    c ∈ ((ofContext axis test input true).makeRef root slot).context ↔
      ∃ anchor ∈ input.nodes,
        store.Reaches relation slot.kind [anchor] (root.doc.id, slot.id) ∧
          anchor.HandsOn true c := by
  obtain ⟨d, hd, hdoc, hholds⟩ := storedIn_of_mem_roots hinput hroot
  obtain ⟨hslotholds, -, hrelates⟩ := (mem_reach_iff h hd hdoc hholds hrelation hlazy).mp hslot
  obtain ⟨node, hnode, hid, hkind⟩ := id hslotholds
  rw [makeRef]
  split
  · next hspans =>
    have hback : (Relation.descendant (decide (axis = .descendantOrSelf))).looksBack := rfl
    have hdescendant : relation = .descendant (decide (axis = .descendantOrSelf)) :=
      relation_eq_of_spansSubtree hspans hrelation
    rw [hdescendant, hdoc, ← hid, ← hkind,
      ← NodeSet.exists_anchor_iff h hinput hback true hd hnode, NodeRef.mem_context_pushContexts,
      ← List.mem_map]
    exact or_iff_right List.not_mem_nil
  · next hspans =>
    have hsole (a : Nat) (ha : relation.Relates d.doc.numbering a slot.id) : a = root.id :=
      eq_of_relates hspans hrelation hlazy ha hrelates
    rw [NodeRef.mem_context_reachedFrom_blank rfl]
    constructor
    · intro hc
      obtain ⟨anchor, hanchor, hadoc, haid, -⟩ := exists_same_of_mem_roots h hinput hroot
      refine ⟨anchor, hanchor, ?_, ?_⟩
      · rw [Store.reaches_singleton_iff h hd (hadoc.trans hdoc), haid, hdoc]
        exact ⟨rfl, hslotholds, admits_of_mem hrelation hlazy, hrelates⟩
      · rw [NodeRef.HandsOn, NodeRef.asContext, hadoc, haid]
        exact hc
    · rintro ⟨anchor, hanchor, ⟨e, he, heid, -, other, hother, hoid, -, hanchors⟩, hc⟩
      obtain rfl := List.mem_singleton.mp hother
      obtain rfl : e = d := h.eq_of_id he hd (by rw [heid, hdoc])
      rw [NodeRef.HandsOn, NodeRef.asContext, hsole _ hanchors, hoid] at hc
      exact hc

/-- A lazy result that remembers keeps all origins. -/
theorem keepsOrigins_enumerate :
    (NodeSet.ofList ((ofContext axis test input true).enumerate store.source)).KeepsOrigins store
      relation input.nodes (Asks store axis test input.nodes)
        fun anchor _ c => anchor.HandsOn true c := by
  refine (gathers_enumerate h hinput hrelation hlazy).keepsOrigins h (fun ref href c => ?_)
    fun ref href => ?_
  · obtain ⟨root, hroot, href⟩ := List.mem_flatMap.mp href
    obtain ⟨slot, hslot, rfl⟩ := List.mem_map.mp href
    rw [makeRef_kind, makeRef_key]
    exact mem_context_makeRef_iff h hinput hrelation hlazy hroot (List.mem_filter.mp hslot).1
  · obtain ⟨root, hroot, href⟩ := List.mem_flatMap.mp href
    exact ((contributes_root h hinput hrelation hlazy hroot).sound ref href).1

end

end LazyNodes

/-! ## Climbs and walks -/

namespace NodeRef

variable {node : NodeRef} {remember : Bool}

/-- A node on its own ancestor axis: as it came, but with itself for a context if nodes remember. -/
def asSelf (node : NodeRef) (remember : Bool) : NodeRef :=
  if remember then node.pushContext node.asContext else node

@[simp] theorem asSelf_doc (node : NodeRef) (remember : Bool) :
    (node.asSelf remember).doc = node.doc := by
  rw [asSelf, apply_ite doc, pushContext_doc, ite_self]

@[simp] theorem asSelf_id (node : NodeRef) (remember : Bool) :
    (node.asSelf remember).id = node.id := by
  rw [asSelf, apply_ite NodeRef.id, pushContext_id, ite_self]

@[simp] theorem asSelf_kind (node : NodeRef) (remember : Bool) :
    (node.asSelf remember).kind = node.kind := by
  rw [asSelf, apply_ite kind, pushContext_kind, ite_self]

@[simp] theorem asSelf_key (node : NodeRef) (remember : Bool) :
    (node.asSelf remember).key = node.key := by simp [key]

theorem mem_context_asSelf :
    c ∈ (node.asSelf remember).context ↔ node.HandsOn remember c ∨ c ∈ node.context := by
  rw [asSelf, HandsOn]
  split
  · rw [mem_context_pushContext, or_comm]
  · exact (or_self_iff).symm

/-- A climb passes the ancestors of the node that it starts at. -/
theorem mem_climbed_iff {ref : NodeRef} {level id : Nat}
    (hid : node.doc.numbering.Uses id) (hlevel : node.doc.numbering.levelOf id = level) :
    ref ∈ node.climbed level id ↔
      ref = .element node.doc ref.id ∧ node.doc.numbering.isAncestor ref.id id := by
  induction level generalizing id with
  | zero =>
    rw [climbed]
    refine iff_of_false List.not_mem_nil fun h => ?_
    have := (Numbering.isAncestor_iff.mp h.2).1
    omega
  | succ level ih =>
    have hpos : 0 < node.doc.numbering.levelOf id := hlevel ▸ Nat.succ_pos level
    have hne := hid.parentOf_ne_noNode_iff.mpr hpos
    obtain ⟨huses, hparent⟩ := hid.parentOf hpos
    rw [climbed, Partition.parentAt_levelOf hlevel, if_neg hne, List.mem_cons,
      ih huses (by omega), Numbering.isAncestor_iff_parentOf hid]
    constructor
    · rintro (rfl | ⟨href, hancestor⟩)
      · exact ⟨rfl, hne, .inl rfl⟩
      · exact ⟨href, hne, .inr hancestor⟩
    · rintro ⟨href, -, heq | hancestor⟩
      · exact .inl (by rw [href, heq])
      · exact .inr ⟨href, hancestor⟩

/-- Whatever a climb passes it takes for an element, and nothing is remembered of it. -/
theorem eq_element_of_mem_ancestors {ref : NodeRef} (h : ref ∈ node.ancestors) :
    ref = .element node.doc ref.id := by
  have hclimbed (level id : Nat) (href : ref ∈ node.climbed level id) :
      ref = .element node.doc ref.id := by
    induction level generalizing id with
    | zero => cases href
    | succ level ih =>
      rw [climbed] at href
      split at href
      · cases href
      · obtain rfl | href := List.mem_cons.mp href
        · rfl
        · exact ih _ href
  exact hclimbed _ _ h

theorem kind_of_mem_ancestors {ref : NodeRef} (h : ref ∈ node.ancestors) : ref.kind = .element := by
  rw [eq_element_of_mem_ancestors h]
  rfl

theorem mem_ancestors_iff {ref : NodeRef} (hid : node.doc.numbering.Uses node.id) :
    ref ∈ node.ancestors ↔
      ref = .element node.doc ref.id ∧ node.doc.numbering.isAncestor ref.id node.id :=
  mem_climbed_iff hid rfl

end NodeRef

/-- The parent of a node, as an element. The root has none. -/
def NodeRef.parentRefs (node : NodeRef) : List NodeRef :=
  if node.parent = noNode then [] else [.element node.doc node.parent]

theorem NodeRef.context_of_mem_parentRefs {node ref : NodeRef} (h : ref ∈ node.parentRefs) :
    ref.context = [] := by
  rw [parentRefs] at h
  split at h
  · cases h
  · rw [List.mem_singleton.mp h]
    rfl

theorem NodeSet.parents_eq (s : NodeSet) (remember : Bool) :
    s.parents remember =
      ofList (s.nodes.flatMap fun node => node.parentRefs.map (·.reachedFrom node remember)) := by
  rw [parents, List.filterMap_eq_flatMap_toList]
  refine congrArg ofList (List.flatMap_congr fun node _ => ?_)
  rw [NodeRef.parentRefs]
  split <;> rfl

namespace Plan

variable {plan : Plan} {input : NodeSet} {remember : Bool} {indexed : IndexedKind}

/-- What the ancestor axes find from one node. -/
def ancestorRefs (plan : Plan) (includeSelf remember : Bool) (node : NodeRef) : List NodeRef :=
  (if includeSelf && plan.test.matchesKind node.kind then [node.asSelf remember] else []) ++
    node.ancestors.map (·.reachedFrom node remember)

theorem streamAncestors_eq (plan : Plan) (input : NodeSet) (includeSelf remember : Bool) :
    plan.streamAncestors input includeSelf remember =
      .ofList (input.nodes.flatMap (plan.ancestorRefs includeSelf remember)) := rfl

theorem mem_ancestorRefs_iff {includeSelf : Bool} {node ref : NodeRef}
    (hid : node.doc.numbering.Uses node.id) :
    ref ∈ plan.ancestorRefs includeSelf remember node ↔
      (includeSelf ∧ plan.test.matchesKind node.kind) ∧ ref = node.asSelf remember ∨
        ∃ a, node.doc.numbering.isAncestor a node.id ∧
          ref = (NodeRef.element node.doc a).reachedFrom node remember := by
  rw [ancestorRefs, List.mem_append, ← Bool.and_eq_true_iff, List.mem_map]
  refine or_congr ?_ ⟨?_, ?_⟩
  · split
    · next hown => simp [hown]
    · next hown => simp [hown]
  · rintro ⟨ancestor, hancestor, rfl⟩
    obtain ⟨heq, habove⟩ := (NodeRef.mem_ancestors_iff hid).mp hancestor
    exact ⟨ancestor.id, habove, by rw [← heq]⟩
  · rintro ⟨a, habove, rfl⟩
    exact ⟨_, (NodeRef.mem_ancestors_iff hid).mpr ⟨rfl, habove⟩, rfl⟩

section

variable (h : store.Nested) (hinput : input.StoredIn store)

include h hinput

/-- The parents of stored nodes are what the parent relation reaches. -/
theorem keepsOrigins_parents :
    (input.parents remember).KeepsOrigins store .parent input.nodes (fun _ _ => True)
      fun anchor _ c => anchor.HandsOn remember c := by
  rw [NodeSet.parents_eq]
  refine NodeSet.keepsOrigins_reachedFrom h (fun node hnode => ?_)
    fun node ref href => NodeRef.context_of_mem_parentRefs href
  obtain ⟨d, hd, hdoc, hholds⟩ := hinput.of_mem_nodes hnode
  have hparent : node.parent = d.doc.numbering.parentOf node.id := by rw [NodeRef.parent, hdoc]
  simp only [NodeRef.parentRefs, hparent]
  refine .of_stored h hd hdoc (fun ref href => ?_) fun slot hslot _ _ hrelates => ?_
  · split at href
    · cases href
    · next hne =>
      rw [List.mem_singleton.mp href]
      exact ⟨hdoc, hholds.of_parentOf (h.nested d hd) hne, trivial, trivial, rfl⟩
  · have hrelates : d.doc.numbering.parentOf node.id = slot.id := hrelates
    have hne : d.doc.numbering.parentOf node.id ≠ noNode := by
      rw [hrelates]
      exact (hslot.uses (h.identifies hd)).ne_noNode
    rw [if_neg hne]
    exact ⟨_, List.mem_singleton_self _, hdoc, hrelates⟩

/-- What one node contributes on the ancestor axes. -/
theorem contributes_ancestorRefs (hmay : plan.test.mayMatchElement) {includeSelf : Bool}
    {node : NodeRef} (hnode : node ∈ input.nodes) :
    NodeSet.Contributes store (.ancestor includeSelf) (fun _ kind => plan.test.matchesKind kind)
      node (plan.ancestorRefs includeSelf remember node) := by
  obtain ⟨d, hd, hdoc, hholds⟩ := hinput.of_mem_nodes hnode
  have huses : node.doc.numbering.Uses node.id := hdoc ▸ hholds.uses (h.identifies hd)
  refine .of_stored h hd hdoc (fun ref href => ?_) fun slot hslot hasked _ hrelates => ?_
  · obtain ⟨⟨hself, hmatches⟩, rfl⟩ | ⟨a, habove, rfl⟩ := (mem_ancestorRefs_iff huses).mp href
    · rw [NodeRef.asSelf_doc, NodeRef.asSelf_id, NodeRef.asSelf_kind]
      exact ⟨hdoc, hholds, hmatches, trivial, .inl ⟨hself, rfl⟩⟩
    · rw [hdoc] at habove
      rw [NodeRef.reachedFrom_doc, NodeRef.reachedFrom_id, NodeRef.reachedFrom_kind]
      exact ⟨hdoc, hholds.of_isAncestor (h.nested d hd) habove, NodeTest.matchesKind_element hmay,
        trivial, .inr habove⟩
  · obtain ⟨hself, hid⟩ | habove := hrelates
    · have hkind : slot.kind = node.kind := hslot.kind_eq (h.identifies hd) hholds hid
      refine ⟨node.asSelf remember, (mem_ancestorRefs_iff huses).mpr (.inl ⟨⟨hself, ?_⟩, rfl⟩), ?_⟩
      · exact hkind ▸ hasked
      · rw [NodeRef.asSelf_doc, NodeRef.asSelf_id]
        exact ⟨hdoc, hid.symm⟩
    · refine ⟨(NodeRef.element node.doc slot.id).reachedFrom node remember,
        (mem_ancestorRefs_iff huses).mpr (.inr ⟨slot.id, hdoc ▸ habove, rfl⟩), ?_⟩
      rw [NodeRef.reachedFrom_doc, NodeRef.reachedFrom_id]
      exact ⟨hdoc, rfl⟩

/-- The ancestors of stored nodes, and the nodes themselves, are what the ancestor relation
reaches. A node that stands for itself keeps what it remembers. -/
theorem keepsOrigins_streamAncestors (hmay : plan.test.mayMatchElement) {includeSelf : Bool} :
    (plan.streamAncestors input includeSelf remember).KeepsOrigins store (.ancestor includeSelf)
      input.nodes (fun _ kind => plan.test.matchesKind kind) fun anchor key c =>
        anchor.HandsOn remember c ∨ includeSelf ∧ anchor.key = key ∧ c ∈ anchor.context := by
  rw [streamAncestors_eq]
  refine NodeSet.keepsOrigins_ofList_flatMap h
    (fun node hnode => contributes_ancestorRefs h hinput hmay hnode) fun node hnode ref href c => ?_
  obtain ⟨d, hd, hdoc, hholds⟩ := hinput.of_mem_nodes hnode
  have huses : node.doc.numbering.Uses node.id := hdoc ▸ hholds.uses (h.identifies hd)
  obtain ⟨⟨hself, -⟩, rfl⟩ | ⟨a, habove, rfl⟩ := (mem_ancestorRefs_iff huses).mp href
  · rw [NodeRef.mem_context_asSelf, NodeRef.asSelf_key]
    exact or_congr_right ⟨fun hc => ⟨hself, rfl, hc⟩, fun hc => hc.2.2⟩
  · rw [NodeRef.mem_context_reachedFrom_blank rfl]
    refine (or_iff_left ?_).symm
    rintro ⟨-, hkey, -⟩
    have hid : node.id = a := by
      rw [NodeRef.reachedFrom_key] at hkey
      exact congrArg Prod.snd hkey
    rw [hid] at habove
    exact Numbering.not_isAncestor_self _ _ habove

/-- A walk that visits what the relation allows finds what it reaches. -/
theorem keepsOrigins_streamWalk {walk : NodeRef → List Slot}
    (hwalk : ∀ d ∈ store.documents, ∀ context : NodeRef, context.doc = d.doc →
      d.Holds ⟨context.id, context.kind⟩ → ∀ slot : Slot,
        (slot ∈ walk context ↔ d.Holds slot ∧ relation.Admits context.kind slot.kind ∧
          relation.Relates d.doc.numbering context.id slot.id)) :
    (plan.streamWalk input remember walk).KeepsOrigins store relation input.nodes
      (fun _ kind => plan.test.matchesKind kind) fun anchor _ c => anchor.HandsOn remember c := by
  let visited (node : NodeRef) : List NodeRef :=
    ((walk node).filter (plan.test.matchesKind ·.kind)).map fun slot =>
      { doc := node.doc, id := slot.id, kind := slot.kind }
  have hstream : plan.streamWalk input remember walk =
      .ofList (input.nodes.flatMap fun node =>
        (visited node).map (·.reachedFrom node remember)) := by
    rw [streamWalk]
    refine congrArg NodeSet.ofList (List.flatMap_congr fun node _ => ?_)
    rw [List.map_map]
    rfl
  rw [hstream]
  refine NodeSet.keepsOrigins_reachedFrom h (fun node hnode => ?_) fun node ref href => ?_
  · obtain ⟨d, hd, hdoc, hholds⟩ := hinput.of_mem_nodes hnode
    refine .of_stored h hd hdoc (fun ref href => ?_) fun slot hslot hasked hadmits hrelates => ?_
    · obtain ⟨slot, hslot, rfl⟩ := List.mem_map.mp href
      obtain ⟨hslot, hmatches⟩ := List.mem_filter.mp hslot
      obtain ⟨hslotholds, hrelated⟩ := (hwalk d hd node hdoc hholds slot).mp hslot
      exact ⟨hdoc, hslotholds, hmatches, hrelated⟩
    · have hvisited := (hwalk d hd node hdoc hholds slot).mpr ⟨hslot, hadmits, hrelates⟩
      exact ⟨_, List.mem_map_of_mem (List.mem_filter.mpr ⟨hvisited, hasked⟩), hdoc, rfl⟩
  · obtain ⟨slot, -, rfl⟩ := List.mem_map.mp href
    rfl

end

theorem mem_siblingWalk_iff (h : store.Nested) (hd : d ∈ store.documents) {context : NodeRef}
    (hdoc : context.doc = d.doc) (hholds : d.Holds ⟨context.id, context.kind⟩)
    {direction : Direction} {slot : Slot} :
    slot ∈ siblingWalk store.source direction context ↔
      d.Holds slot ∧ (Relation.sibling direction).Admits context.kind slot.kind ∧
        (Relation.sibling direction).Relates d.doc.numbering context.id slot.id := by
  rw [siblingWalk, Relation.Admits, Relation.Relates]
  split
  · next hattribute =>
    exact iff_of_false List.not_mem_nil fun hboth => hboth.2.1.1 hattribute
  · next hother =>
    rw [hdoc, NodeSource.mem_siblings_iff h hd (hholds.uses (h.identifies hd))]
    exact and_congr_right fun _ =>
      ⟨fun hrest => ⟨⟨hother, hrest.1⟩, hrest.2⟩, fun hrest => ⟨hrest.1.2, hrest.2⟩⟩

theorem mem_beyondWalk_iff (h : store.Nested) (hd : d ∈ store.documents) {context : NodeRef}
    (hdoc : context.doc = d.doc) (hholds : d.Holds ⟨context.id, context.kind⟩)
    {direction : Direction} {slot : Slot} :
    slot ∈ store.source.beyond context direction ↔
      d.Holds slot ∧ (Relation.beyond direction).Admits context.kind slot.kind ∧
        (Relation.beyond direction).Relates d.doc.numbering context.id slot.id :=
  NodeSource.mem_beyond_iff h hd hdoc hholds

/-! ## Nodes that stand for themselves -/

theorem reaches_self_iff (h : store.Nested) {anchor : NodeRef} (hanchor : anchor.StoredIn store) :
    store.Reaches .self kind [anchor] key ↔ anchor.key = key ∧ kind = anchor.kind := by
  obtain ⟨d, hd, hdoc, hholds⟩ := hanchor
  rw [Store.reaches_singleton_iff h hd hdoc]
  constructor
  · rintro ⟨hid, hkeyholds, -, hsame⟩
    have hsame : key.2 = anchor.id := hsame
    exact ⟨Prod.ext ((congrArg Document.id hdoc).trans hid) hsame.symm,
      hkeyholds.kind_eq (h.identifies hd) hholds hsame⟩
  · rintro ⟨rfl, rfl⟩
    exact ⟨congrArg Document.id hdoc.symm, hholds, trivial, rfl⟩

theorem nodes_asSelf (input : NodeSet) (remember : Bool) :
    (if remember then input.setSelfAsContext else input).nodes =
      input.nodes.map (·.asSelf remember) := by
  cases remember with
  | false => exact (List.map_id input.nodes).symm
  | true =>
    show (input.parts.map Partition.setSelfAsContext).flatMap Partition.nodes =
      (input.parts.flatMap Partition.nodes).map _
    rw [List.flatMap_map, List.map_flatMap]
    exact List.flatMap_congr fun p _ => p.nodes_setSelfAsContext

/-- Taken as its own result, an input is what is reached from its nodes without a move. They keep
what they remember. -/
theorem keepsOrigins_asSelf (h : store.Nested) (hinput : input.StoredIn store) :
    (if remember then input.setSelfAsContext else input).KeepsOrigins store .self input.nodes
      (fun _ _ => True) fun anchor key c =>
        anchor.HandsOn remember c ∨ anchor.key = key ∧ c ∈ anchor.context where
  stored := by
    split
    · exact hinput.setSelfAsContext
    · exact hinput
  mem_iff key := by
    rw [NodeSet.mem_iff_exists_node, nodes_asSelf]
    constructor
    · rintro ⟨marked, hmarked, rfl⟩
      obtain ⟨node, hnode, rfl⟩ := List.mem_map.mp hmarked
      refine ⟨node.kind, trivial, Store.reaches_iff_exists.mpr ⟨node, hnode, ?_⟩⟩
      exact (reaches_self_iff h (hinput.of_mem_nodes hnode)).mpr ⟨by simp, rfl⟩
    · rintro ⟨kind, -, hreaches⟩
      obtain ⟨node, hnode, hreaches⟩ := Store.reaches_iff_exists.mp hreaches
      obtain ⟨rfl, -⟩ := (reaches_self_iff h (hinput.of_mem_nodes hnode)).mp hreaches
      exact ⟨node.asSelf remember, List.mem_map_of_mem hnode, by simp⟩
  recalls_iff key c := by
    rw [NodeSet.Recalls, nodes_asSelf]
    constructor
    · rintro ⟨marked, hmarked, rfl, hc⟩
      obtain ⟨node, hnode, rfl⟩ := List.mem_map.mp hmarked
      refine ⟨node.kind, trivial, node, hnode, ?_, ?_⟩
      · exact (reaches_self_iff h (hinput.of_mem_nodes hnode)).mpr ⟨by simp, rfl⟩
      · exact (NodeRef.mem_context_asSelf.mp hc).imp_right fun hown => ⟨by simp, hown⟩
    · rintro ⟨kind, -, node, hnode, hreaches, hc⟩
      obtain ⟨rfl, -⟩ := (reaches_self_iff h (hinput.of_mem_nodes hnode)).mp hreaches
      refine ⟨node.asSelf remember, List.mem_map_of_mem hnode, by simp, ?_⟩
      exact NodeRef.mem_context_asSelf.mpr (hc.imp_right And.right)

/-! ## Streams -/

/-- Only elements stand right above a stored node. -/
theorem kind_of_reaches_parent (h : store.Nested) (hinput : input.StoredIn store)
    (hreaches : store.Reaches .parent kind input.nodes key) : kind = .element := by
  obtain ⟨d, hd, hid, hholds, context, hcontext, hcid, -, hparent⟩ := hreaches
  obtain ⟨e, he, hdoc, hcholds⟩ := hinput.of_mem_nodes hcontext
  obtain rfl : e = d := h.eq_of_id he hd (by rw [← hdoc, hcid, hid])
  exact hholds.element_of_parentOf (h.nested e hd) hcholds hparent

/-- The wildcard steps whose results are enumerated lazily. -/
def StreamsLazily (plan : Plan) : Prop :=
  plan.axis ∈ [.self, .child, .attribute, .descendant, .descendantOrSelf, .descendantAttribute] ∧
    ¬(plan.axis = .self ∧ plan.test.kind = .node)

/-- The wildcard steps that can find a context node itself and do not enumerate lazily. It is then
found as it came, with what it remembered. -/
def KeepsOwn (plan : Plan) : Prop :=
  plan.axis = .ancestorOrSelf ∨ plan.axis = .self ∧ plan.test.kind = .node

/-- What a context node leaves with a node that a wildcard step finds. -/
def Leaves (plan : Plan) (remember : Bool) (anchor : NodeRef) (key : DocumentId × Nat)
    (c : ContextNode) : Prop :=
  anchor.HandsOn remember c ∨ plan.KeepsOwn ∧ anchor.key = key ∧ c ∈ anchor.context

theorem leaves_iff (hown : ¬plan.KeepsOwn) {anchor : NodeRef} :
    plan.Leaves remember anchor key c ↔ anchor.HandsOn remember c :=
  or_iff_left fun hkept => hown hkept.1

theorem stream_of_lazily (hlazy : plan.StreamsLazily) (source : NodeSource) (input : NodeSet)
    (remember : Bool) :
    plan.stream source input remember =
      .lazily (.ofContext plan.axis plan.test input remember) := by
  obtain ⟨haxis, hself⟩ := hlazy
  rw [stream]
  cases hcase : plan.axis with
  | child | «attribute» | descendant | descendantOrSelf | descendantAttribute => rfl
  | self => exact if_neg fun hkind => hself ⟨hcase, hkind⟩
  | _ =>
    rw [hcase] at haxis
    simp at haxis

section

variable (h : store.Nested) (hinput : input.StoredIn store)
  (hrelation : plan.axis.relation? = some relation)

include h hinput hrelation

/-- Climbs and walks keep all origins, whether they remember or not. -/
theorem keepsOrigins_stream_of_not_lazily (hlazy : ¬plan.StreamsLazily)
    (hmay : plan.axis.elementsOnly → plan.test.mayMatchElement) :
    ((plan.stream store.source input remember).toNodeSet store.source).KeepsOrigins store relation
      input.nodes (LazyNodes.Asks store plan.axis plan.test input.nodes)
        (plan.Leaves remember) := by
  rw [stream]
  cases haxis : plan.axis with
  | child | «attribute» | descendant | descendantOrSelf | descendantAttribute =>
    refine absurd ⟨?_, ?_⟩ hlazy
    · rw [haxis]
      simp
    · rw [haxis]
      exact nofun
  | self =>
    rw [haxis] at hrelation
    cases hrelation
    have hkind : plan.test.kind = .node := by
      by_contra hkind
      exact hlazy ⟨by simp [haxis], fun hself => hkind hself.2⟩
    rw [if_pos hkind]
    refine (keepsOrigins_asSelf h hinput).congr (fun key kind _ => ?_) fun anchor key c => ?_
    · exact iff_of_true trivial ⟨by rw [NodeTest.matchesKind, hkind], trivial⟩
    · exact or_congr_right ⟨fun hc => ⟨.inr ⟨haxis, hkind⟩, hc⟩, And.right⟩
  | parent =>
    rw [haxis] at hrelation hmay
    cases hrelation
    refine (keepsOrigins_parents h hinput).congr (fun key kind hreaches => ?_) fun anchor key c => ?_
    · rw [kind_of_reaches_parent h hinput hreaches]
      exact iff_of_true trivial ⟨NodeTest.matchesKind_element (hmay rfl), trivial⟩
    · exact (leaves_iff (by simp [KeepsOwn, haxis])).symm
  | ancestor | ancestorOrSelf =>
    rw [haxis] at hrelation hmay
    cases hrelation
    refine (keepsOrigins_streamAncestors h hinput (hmay rfl)).congr
      (fun key kind _ => (and_iff_left trivial).symm) fun anchor key c => ?_
    simp [Leaves, KeepsOwn, haxis]
  | followingSibling | precedingSibling =>
    rw [haxis] at hrelation
    cases hrelation
    refine (keepsOrigins_streamWalk h hinput fun d hd context hdoc hholds slot =>
      mem_siblingWalk_iff h hd hdoc hholds).congr
        (fun key kind _ => (and_iff_left trivial).symm) fun anchor key c => ?_
    exact (leaves_iff (by simp [KeepsOwn, haxis])).symm
  | following | preceding =>
    rw [haxis] at hrelation
    cases hrelation
    refine (keepsOrigins_streamWalk h hinput fun d hd context hdoc hholds slot =>
      mem_beyondWalk_iff h hd hdoc hholds).congr
        (fun key kind _ => (and_iff_left trivial).symm) fun anchor key c => ?_
    exact (leaves_iff (by simp [KeepsOwn, haxis])).symm
  | namespaceAxis =>
    rw [haxis] at hrelation
    cases hrelation

variable (hmay : plan.axis.elementsOnly → plan.test.mayMatchElement)

include hmay

/-- A wildcard step gathers what the relation of its axis reaches, of the kinds that the axis
opens up and that pass the test. -/
theorem gathers_stream :
    ((plan.stream store.source input remember).toNodeSet store.source).Gathers store relation
      input.nodes (LazyNodes.Asks store plan.axis plan.test input.nodes) := by
  by_cases hlazy : plan.StreamsLazily
  · rw [stream_of_lazily hlazy]
    exact (LazyNodes.gathers_enumerate h hinput hrelation hlazy.1).sort
  · exact (keepsOrigins_stream_of_not_lazily h hinput hrelation hlazy hmay).toGathers

/-- If it remembers, it keeps all origins. -/
theorem keepsOrigins_stream :
    ((plan.stream store.source input true).toNodeSet store.source).KeepsOrigins store relation
      input.nodes (LazyNodes.Asks store plan.axis plan.test input.nodes) (plan.Leaves true) := by
  by_cases hlazy : plan.StreamsLazily
  · rw [stream_of_lazily hlazy]
    have hown : ¬plan.KeepsOwn := by
      rintro (haxis | hself)
      · have hmem := hlazy.1
        rw [haxis] at hmem
        simp at hmem
      · exact hlazy.2 hself
    exact (LazyNodes.keepsOrigins_enumerate h hinput hrelation hlazy.1).sort.congr
      (fun _ _ _ => Iff.rfl) fun _ _ _ => (leaves_iff hown).symm
  · exact keepsOrigins_stream_of_not_lazily h hinput hrelation hlazy hmay

end

end Plan

end TreeAxes
