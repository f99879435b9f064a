import TreeAxes.Proofs.LazyNodes.Iteration
import TreeAxes.Proofs.NodeSet.Joins
import TreeAxes.Proofs.Numbering.Tiling
import TreeAxes.Proofs.Step.Streaming

/-!
# Lazy results come in document order

Walks go down window by window, so what they come to from one node stands in document order, and
within its subtree. Roots that do not stand below each other have subtrees that follow each other.
Hence an iteration through whole subtrees is in document order altogether, and no iteration comes
to a node twice. Of a source this only asks that it has attributes first in every window.
-/

namespace TreeAxes

namespace Numbering

variable {n : Numbering} {a b x y : Nat}

theorem notAfter_of_within (hx : n.Uses x) (h : n.Within a x) : n.notAfter a x := by
  obtain rfl | habove := h
  · exact (Bool.or_self _).symm.trans (n.notAfter_total x x)
  · rw [notAfter, lt_of_above hx habove]
    rfl

/-- Subtrees of which neither holds the other follow each other as their tops do. -/
theorem lt_of_apart (ha : n.Uses a) (hb : n.Uses b) (hx : n.Uses x) (hy : n.Uses y)
    (hlt : n.compareDocumentOrder a b = .lt) (hapart : ¬n.isAncestor a b) (hax : n.Within a x)
    (hby : n.Within b y) : n.compareDocumentOrder x y = .lt := by
  have hbefore : ¬n.notAfter y x := by
    intro hyx
    -- otherwise `b` stands between `a` and `x`, hence below `a`
    have hbx := n.notAfter_trans b y x (notAfter_of_within hy hby) hyx
    have hab : n.notAfter a b := by
      rw [notAfter, hlt]
      rfl
    obtain rfl | habove := within_of_between ha hx (.inl rfl) hax hab hbx
    · exact Std.OrientedCmp.not_lt_of_lt hlt hlt
    · exact hapart ((isAncestor_iff_above hb).mpr habove)
  have htotal := n.notAfter_total x y
  rw [Bool.not_eq_true] at hbefore
  rw [hbefore, Bool.or_false] at htotal
  refine lt_of_notAfter htotal ?_
  rintro rfl
  rw [htotal] at hbefore
  cases hbefore

end Numbering

namespace NodeSource

variable {source : NodeSource} {doc : Document} {node slot a b x y : Slot} {p : Nat}

/-- Whether attributes take the first slots of their parents. -/
def AttributesFirst (source : NodeSource) (doc : Document) : Prop :=
  ∀ p ≤ doc.numbering.maxId, ∀ a ∈ source.children doc p, ∀ b ∈ source.children doc p,
    a.kind = .attribute → b.kind ≠ .attribute → a.id < b.id

instance (source : NodeSource) (doc : Document) : Decidable (source.AttributesFirst doc) :=
  inferInstanceAs (Decidable (∀ p ≤ doc.numbering.maxId, _))

/-- Whether a slot comes before another one in document order. -/
def Precedes (doc : Document) (a b : Slot) : Prop :=
  doc.numbering.compareDocumentOrder a.id b.id = .lt

/-- Whether a slot is used and stands in the subtree of an identifier. -/
def Under (doc : Document) (top : Nat) (x : Slot) : Prop :=
  doc.numbering.Uses x.id ∧ doc.numbering.Within top x.id

/-- Whatever a source has below a node is a child by the numbering. -/
theorem parentOf_of_mem_children (h : slot ∈ source.children doc p) :
    doc.numbering.Uses p ∧ doc.numbering.Uses slot.id ∧ doc.numbering.parentOf slot.id = p := by
  rw [children] at h
  split at h
  · next w hw =>
    obtain ⟨id, hid, hslot⟩ := List.mem_filterMap.mp h
    obtain ⟨kind, -, rfl⟩ := Option.map_eq_some_iff.mp hslot
    have hp := Numbering.uses_of_window? hw
    exact ⟨hp, (Numbering.mem_window_iff hp hw).mp ((Numbering.mem_ids_iff hw).mp hid)⟩
  · cases h

theorem sublist_contents (source : NodeSource) (doc : Document) (node : Slot) :
    (source.contents doc node).Sublist (source.children doc node.id) := by
  rw [contents]
  split
  · exact List.filter_sublist
  · exact List.nil_sublist _

theorem sublist_attributes (source : NodeSource) (doc : Document) (node : Slot) :
    (source.attributes doc node).Sublist (source.children doc node.id) := by
  rw [attributes]
  split
  · exact List.filter_sublist
  · exact List.nil_sublist _

theorem kind_eq_of_mem_attributes (h : slot ∈ source.attributes doc node) :
    slot.kind = .attribute := by
  rw [attributes] at h
  split at h
  · exact of_decide_eq_true (List.mem_filter.mp h).2
  · cases h

theorem kind_ne_of_mem_contents (h : slot ∈ source.contents doc node) :
    slot.kind ≠ .attribute := by
  rw [contents] at h
  split at h
  · exact of_decide_eq_true (List.mem_filter.mp h).2
  · cases h

/-! ## Walks below siblings -/

theorem under_self (h : doc.numbering.Uses slot.id) : Under doc slot.id slot := ⟨h, .inl rfl⟩

/-- What stands under a child stands below its parent. -/
theorem Under.above (hx : Under doc slot.id x) (hslot : slot ∈ source.children doc p) :
    doc.numbering.Above p x.id := by
  obtain ⟨hp, huses, hparent⟩ := parentOf_of_mem_children hslot
  exact Numbering.above_of_within hp huses hparent hx.1 hx.2

theorem Under.of_child (hx : Under doc slot.id x) (hslot : slot ∈ source.children doc p) :
    Under doc p x := ⟨hx.1, .inr (hx.above hslot)⟩

theorem under_of_mem_children (h : slot ∈ source.children doc p) : Under doc p slot :=
  (under_self (parentOf_of_mem_children h).2.1).of_child h

/-- Siblings bring what is under them into their own order. -/
theorem precedes_of_siblings (ha : a ∈ source.children doc p) (hb : b ∈ source.children doc p)
    (hlt : a.id < b.id) (hx : Under doc a.id x) (hy : Under doc b.id y) : Precedes doc x y := by
  obtain ⟨-, hause, haparent⟩ := parentOf_of_mem_children ha
  obtain ⟨-, hbuse, hbparent⟩ := parentOf_of_mem_children hb
  have hlevel := Numbering.levelOf_eq_of_parentOf_eq hause hbuse (haparent.trans hbparent.symm)
  exact Numbering.lt_of_within hx.1 hy.1 hlevel hlt hx.2 hy.2

section

variable {slots : List Slot} {walk : Slot → List Slot}
  (hslots : slots.Sublist (source.children doc p))
  (hunder : ∀ c ∈ slots, ∀ x ∈ walk c, Under doc c.id x)

include hslots hunder

theorem above_of_mem_flatMap (hx : x ∈ slots.flatMap walk) :
    doc.numbering.Uses x.id ∧ doc.numbering.Above p x.id := by
  obtain ⟨c, hc, hx⟩ := List.mem_flatMap.mp hx
  exact ⟨(hunder c hc x hx).1, (hunder c hc x hx).above (hslots.subset hc)⟩

/-- Walks through the subtrees of siblings follow each other. -/
theorem pairwise_flatMap (hwalk : ∀ c ∈ slots, (walk c).Pairwise (Precedes doc)) :
    (slots.flatMap walk).Pairwise (Precedes doc) := by
  refine List.pairwise_flatMap.mpr ⟨hwalk, ?_⟩
  refine ((source.pairwise_children doc p).sublist hslots).imp_of_mem
    fun {a b} ha hb hlt x hx y hy => ?_
  exact precedes_of_siblings (hslots.subset ha) (hslots.subset hb) hlt (hunder a ha x hx)
    (hunder b hb y hy)

end

/-- Siblings stand in document order. -/
theorem pairwise_siblings {slots : List Slot} (hslots : slots.Sublist (source.children doc p)) :
    slots.Pairwise (Precedes doc) := by
  refine ((source.pairwise_children doc p).sublist hslots).imp_of_mem fun {a b} ha hb hlt => ?_
  have ha := hslots.subset ha
  have hb := hslots.subset hb
  exact precedes_of_siblings ha hb hlt (under_self (parentOf_of_mem_children ha).2.1)
    (under_self (parentOf_of_mem_children hb).2.1)

theorem uses_of_mem_contents (h : slot ∈ source.contents doc node) :
    doc.numbering.Uses slot.id :=
  (parentOf_of_mem_children (mem_children_of_mem_contents h)).2.1

/-! ## Walks below a node -/

theorem under_of_mem_subtree (hnode : doc.numbering.Uses node.id)
    (hx : x ∈ source.subtree doc node) : Under doc node.id x := by
  fun_induction subtree source doc node with
  | case1 node ih =>
    rw [← subtree, subtree_eq] at hx
    obtain rfl | hx := List.mem_cons.mp hx
    · exact under_self hnode
    · obtain ⟨c, hc, hx⟩ := List.mem_flatMap.mp hx
      exact (ih c hc (uses_of_mem_contents hc) hx).of_child (mem_children_of_mem_contents hc)

theorem pairwise_subtree (source : NodeSource) (doc : Document) (node : Slot) :
    (source.subtree doc node).Pairwise (Precedes doc) := by
  fun_induction subtree source doc node with
  | case1 node ih =>
    have hunder (c : Slot) (hc : c ∈ source.contents doc node) (x : Slot)
        (hx : x ∈ source.subtree doc c) : Under doc c.id x :=
      under_of_mem_subtree (uses_of_mem_contents hc) hx
    rw [← subtree, subtree_eq]
    refine List.pairwise_cons.mpr ⟨fun x hx => ?_, ?_⟩
    · obtain ⟨huses, habove⟩ := above_of_mem_flatMap (source.sublist_contents doc node) hunder hx
      exact Numbering.lt_of_above huses habove
    · exact pairwise_flatMap (source.sublist_contents doc node) hunder ih

theorem under_of_mem_attributesWithin (hx : x ∈ source.attributesWithin doc node) :
    Under doc node.id x := by
  fun_induction attributesWithin source doc node with
  | case1 node ih =>
    rw [← attributesWithin, attributesWithin_eq] at hx
    obtain hx | hx := List.mem_append.mp hx
    · exact under_of_mem_children ((source.sublist_attributes doc node).subset hx)
    · obtain ⟨c, hc, hx⟩ := List.mem_flatMap.mp hx
      exact (ih c hc hx).of_child (mem_children_of_mem_contents hc)

/-- The attributes of a node come before those within its children, as they come before these. -/
theorem pairwise_attributesWithin (h : source.AttributesFirst doc) (node : Slot) :
    (source.attributesWithin doc node).Pairwise (Precedes doc) := by
  fun_induction attributesWithin source doc node with
  | case1 node ih =>
    rw [← attributesWithin, attributesWithin_eq]
    refine List.pairwise_append.mpr ⟨pairwise_siblings (source.sublist_attributes doc node), ?_, ?_⟩
    · exact pairwise_flatMap (source.sublist_contents doc node)
        (fun c _ x hx => under_of_mem_attributesWithin hx) ih
    · intro a ha x hx
      obtain ⟨c, hc, hx⟩ := List.mem_flatMap.mp hx
      have hachild := (source.sublist_attributes doc node).subset ha
      have hcchild := mem_children_of_mem_contents hc
      obtain ⟨hp, hause, -⟩ := parentOf_of_mem_children hachild
      have hmax := (Numbering.numbers_iff_uses.mpr hp).2
      exact precedes_of_siblings hachild hcchild
        (h node.id hmax a hachild c hcchild (kind_eq_of_mem_attributes ha)
          (kind_ne_of_mem_contents hc))
        (under_self hause) (under_of_mem_attributesWithin hx)

end NodeSource

namespace LazyNodes

open NodeSource (AttributesFirst Precedes Under)

variable {v : LazyNodes} {source : NodeSource} {root other : NodeRef} {x y : Slot}

/-! ## One root -/

theorem under_of_mem_reach (hroot : root.doc.numbering.Uses root.id)
    (hx : x ∈ v.reach source root) : Under root.doc root.id x := by
  rw [reach] at hx
  generalize v.axis = axis at hx
  cases axis with
  | self =>
    rw [List.mem_singleton.mp hx]
    exact NodeSource.under_self hroot
  | child =>
    exact NodeSource.under_of_mem_children ((source.sublist_contents root.doc _).subset hx)
  | «attribute» =>
    exact NodeSource.under_of_mem_children ((source.sublist_attributes root.doc _).subset hx)
  | descendant =>
    obtain ⟨c, hc, hx⟩ := List.mem_flatMap.mp hx
    exact (NodeSource.under_of_mem_subtree (NodeSource.uses_of_mem_contents hc) hx).of_child
      (NodeSource.mem_children_of_mem_contents hc)
  | descendantOrSelf => exact NodeSource.under_of_mem_subtree hroot hx
  | descendantAttribute => exact NodeSource.under_of_mem_attributesWithin hx
  | _ => cases hx

/-- What a root leads to stands in document order. -/
theorem pairwise_reach (h : source.AttributesFirst root.doc) :
    (v.reach source root).Pairwise (Precedes root.doc) := by
  rw [reach]
  cases v.axis with
  | self => exact List.pairwise_singleton _ _
  | child => exact NodeSource.pairwise_siblings (source.sublist_contents root.doc _)
  | «attribute» => exact NodeSource.pairwise_siblings (source.sublist_attributes root.doc _)
  | descendant =>
    exact NodeSource.pairwise_flatMap (source.sublist_contents root.doc _)
      (fun c hc x hx => NodeSource.under_of_mem_subtree (NodeSource.uses_of_mem_contents hc) hx)
      fun c _ => source.pairwise_subtree root.doc c
  | descendantOrSelf => exact source.pairwise_subtree root.doc _
  | descendantAttribute => exact NodeSource.pairwise_attributesWithin h _
  | _ => exact List.Pairwise.nil

/-- Off the axes through whole subtrees, a node is reached from one root of its document only. -/
theorem id_eq_of_mem_reach (hspans : ¬v.axis.spansSubtree) (hdoc : root.doc = other.doc)
    (hx : x ∈ v.reach source root) (hy : y ∈ v.reach source other) (hid : x.id = y.id) :
    root.id = other.id := by
  have hchild {slots slots' : List Slot}
      (hslots : slots.Sublist (source.children root.doc root.id))
      (hslots' : slots'.Sublist (source.children other.doc other.id)) (hx : x ∈ slots)
      (hy : y ∈ slots') : root.id = other.id := by
    obtain ⟨-, -, hxparent⟩ := NodeSource.parentOf_of_mem_children (hslots.subset hx)
    obtain ⟨-, -, hyparent⟩ := NodeSource.parentOf_of_mem_children (hslots'.subset hy)
    rw [← hxparent, ← hyparent, hdoc, hid]
  rw [reach] at hx hy
  generalize v.axis = axis at hspans hx hy
  cases axis with
  | self => rwa [List.mem_singleton.mp hx, List.mem_singleton.mp hy] at hid
  | child =>
    exact hchild (source.sublist_contents _ _) (source.sublist_contents _ _) hx hy
  | «attribute» =>
    exact hchild (source.sublist_attributes _ _) (source.sublist_attributes _ _) hx hy
  | descendant | descendantOrSelf | descendantAttribute => exact absurd rfl hspans
  | _ => cases hx

theorem exists_mem_reach {node : NodeRef} (h : node ∈ v.fromRoot source root) :
    ∃ x ∈ v.reach source root, node = v.makeRef root x := by
  obtain ⟨x, hx, rfl⟩ := List.mem_map.mp h
  exact ⟨x, (List.mem_filter.mp hx).1, rfl⟩

/-! ## All roots -/

open NodeSet (KeyBefore LiesIn Within)

section

variable {axis : Axis} {test : NodeTest} {context : NodeSet} {remember : Bool}
  {D : DocumentId → Option Document}

theorem perm_toDocumentOrder_sort (context : NodeSet) :
    context.sort.toDocumentOrder.Perm context.sort.nodes :=
  NodeSet.perm_toDocumentOrder (NodeSet.nodup_keys_sort context)

theorem mem_sort_of_mem_roots (h : root ∈ (ofContext axis test context remember).roots) :
    root ∈ context.sort.nodes :=
  (perm_toDocumentOrder_sort context).mem_iff.mp (mem_toDocumentOrder_of_mem_roots h)

theorem pairwise_roots (h : context.LiesIn D) :
    (ofContext axis test context remember).roots.Pairwise fun a b =>
      KeyBefore (Within D) a.key b.key := by
  have hpairwise := h.sort.pairwise_toDocumentOrder
  rw [roots_ofContext]
  split
  · exact hpairwise.filter _
  · exact hpairwise

/-- What is asked of context nodes: they are numbered, in one version of each document. -/
structure Numbered (D : DocumentId → Option Document) (context : NodeSet) : Prop where
  lies : context.LiesIn D
  numbers : ∀ node ∈ context.nodes, node.doc.numbering.Numbers node.id

namespace Numbered

variable (h : Numbered D context)

include h

theorem sort : Numbered D context.sort := by
  refine ⟨h.lies.sort, fun node hnode => ?_⟩
  obtain ⟨copy, hcopy, hdoc, hid, -⟩ := NodeSet.exists_same_of_mem_nodes_sort hnode
  rw [hdoc, hid]
  exact h.numbers copy hcopy

theorem doc_eq {a b : NodeRef} (ha : a ∈ context.nodes) (hb : b ∈ context.nodes)
    (hid : a.doc.id = b.doc.id) : a.doc = b.doc := by
  have hadoc := h.lies.of_mem_nodes ha
  rw [hid, h.lies.of_mem_nodes hb, Option.some_inj] at hadoc
  exact hadoc.symm

theorem numberedIn {d : Document} (hd : D d.id = some d) :
    context.NumberedIn d.id d.numbering := by
  constructor
  · intro p hp hid
    have hpdoc := (h.lies p hp).1
    rw [hid, hd, Option.some_inj] at hpdoc
    rw [hpdoc]
  · intro node hnode hid
    have hndoc := h.lies.of_mem_nodes hnode
    rw [hid, hd, Option.some_inj] at hndoc
    rw [hndoc]
    exact h.numbers node hnode

/-- Above what is outermost in a sorted context, there is no context node. -/
theorem not_isAncestor_of_isOutermost (hsorted : context.order = .byId)
    (houtermost : isOutermost context root) (hroot : root ∈ context.nodes)
    (hother : other ∈ context.nodes) (hid : other.doc.id = root.doc.id) :
    ¬root.doc.numbering.isAncestor other.id root.id := by
  intro habove
  obtain ⟨p, hpart, hmem⟩ := NodeSet.mem_nodes_iff_part?.mp ⟨hother, hid⟩
  obtain ⟨hp, hpid⟩ := NodeSet.part?_eq_some_iff.mp hpart
  have hrdoc := h.lies.of_mem_nodes hroot
  have hpdoc := (h.lies p hp).1
  rw [hpid, hrdoc, Option.some_inj] at hpdoc
  have hready := (h.numberedIn hrdoc).ready hsorted hp hpid
  have huses := Numbering.numbers_iff_uses.mp (h.numbers root hroot)
  have hsome : (p.nearest root.id false false).isSome := by
    refine (Partition.isSome_nearest_iff hready (hpdoc ▸ huses) false).mpr
      ⟨other, hmem, .inr ?_⟩
    rwa [← hpdoc]
  rw [isOutermost, hpart, Option.all_some, Option.isNone_iff_eq_none] at houtermost
  rw [houtermost] at hsome
  cases hsome

end Numbered

/-- What one root leads to is in document order. -/
theorem pairwise_fromRoot (hdoc : D root.doc.id = some root.doc)
    (hfirst : source.AttributesFirst root.doc) :
    (v.fromRoot source root).Pairwise fun a b => KeyBefore (Within D) a.key b.key := by
  refine List.pairwise_map.mpr (((pairwise_reach hfirst).filter _).imp fun {a b} hab => ?_)
  rw [makeRef_key, makeRef_key]
  exact .inr ⟨rfl, root.doc, hdoc, hab⟩

theorem ne_of_keyBefore {a b : DocumentId × Nat} (h : KeyBefore (Within D) a b) : a ≠ b := by
  rintro rfl
  exact h.asymm (fun _ _ _ hab => hab.asymm) h

section

variable (h : Numbered D context)
  (hfirst : ∀ node ∈ context.nodes, source.AttributesFirst node.doc)

include h hfirst

theorem pairwise_fromRoot_of_mem (hroot : root ∈ (ofContext axis test context remember).roots) :
    ((ofContext axis test context remember).fromRoot source root).Pairwise fun a b =>
      KeyBefore (Within D) a.key b.key := by
  have hmem := mem_sort_of_mem_roots hroot
  obtain ⟨copy, hcopy, hdoc, -⟩ := NodeSet.exists_same_of_mem_nodes_sort hmem
  exact pairwise_fromRoot (h.sort.lies.of_mem_nodes hmem) (hdoc ▸ hfirst copy hcopy)

/-- Through whole subtrees, one root after the other is document order. -/
theorem pairwise_enumerate (hspans : axis.spansSubtree) :
    ((ofContext axis test context remember).enumerate source).Pairwise fun a b =>
      KeyBefore (Within D) a.key b.key := by
  rw [enumerate_eq_flatMap]
  refine List.pairwise_flatMap.mpr ⟨fun root => pairwise_fromRoot_of_mem h hfirst, ?_⟩
  refine (pairwise_roots h.lies).imp_of_mem fun {a b} ha hb hab p hp q hq => ?_
  obtain ⟨x, hx, rfl⟩ := exists_mem_reach hp
  obtain ⟨y, hy, rfl⟩ := exists_mem_reach hq
  rw [makeRef_key, makeRef_key]
  refine hab.imp_right fun ⟨hid, d, hd, hlt⟩ => ⟨hid, d, hd, ?_⟩
  have hamem := mem_sort_of_mem_roots ha
  have hbmem := mem_sort_of_mem_roots hb
  have hdoc : a.doc = b.doc := h.sort.doc_eq hamem hbmem hid
  obtain rfl : a.doc = d := Option.some_inj.mp ((h.sort.lies.of_mem_nodes hamem).symm.trans hd)
  have houtermost : isOutermost context.sort b := by
    rw [roots_ofContext, if_pos hspans] at hb
    exact (List.mem_filter.mp hb).2
  have hapart := h.sort.not_isAncestor_of_isOutermost context.sort_order houtermost hbmem hamem hid
  have hause := Numbering.numbers_iff_uses.mp (h.sort.numbers a hamem)
  have hbuse := Numbering.numbers_iff_uses.mp (h.sort.numbers b hbmem)
  have hxunder := under_of_mem_reach hause hx
  have hyunder := under_of_mem_reach hbuse hy
  rw [← hdoc] at hapart hbuse hyunder
  exact Numbering.lt_of_apart hause hbuse hxunder.1 hyunder.1 hlt hapart hxunder.2 hyunder.2

/-- No node is enumerated twice. -/
theorem nodup_enumerate :
    (((ofContext axis test context remember).enumerate source).map (·.key)).Nodup := by
  refine List.pairwise_map.mpr ?_
  by_cases hspans : axis.spansSubtree
  · exact (pairwise_enumerate h hfirst hspans).imp ne_of_keyBefore
  · rw [enumerate_eq_flatMap]
    refine List.pairwise_flatMap.mpr ⟨fun root hroot => ?_, ?_⟩
    · exact (pairwise_fromRoot_of_mem h hfirst hroot).imp ne_of_keyBefore
    · refine (pairwise_roots h.lies).imp_of_mem fun {a b} ha hb hab p hp q hq heq => ?_
      obtain ⟨x, hx, rfl⟩ := exists_mem_reach hp
      obtain ⟨y, hy, rfl⟩ := exists_mem_reach hq
      rw [makeRef_key, makeRef_key, Prod.mk.injEq] at heq
      have hdoc : a.doc = b.doc :=
        h.sort.doc_eq (mem_sort_of_mem_roots ha) (mem_sort_of_mem_roots hb) heq.1
      have hid := id_eq_of_mem_reach hspans hdoc hx hy heq.2
      exact ne_of_keyBefore hab (Prod.ext heq.1 hid)

end

end

/-! ## The main statement -/

/-- What is said of an iteration, by the documents of its context nodes. -/
structure IteratesInOrder (v : LazyNodes) (source : NodeSource)
    (D : DocumentId → Option Document) : Prop where
  ends : ∀ turns, v.iteration.effort source < turns → v.after source turns v.iteration = none
  /-- Whenever an iteration starts, its calls answer with one list, and then with none. -/
  answers : ∀ calls, v.answer source calls v.iteration =
    (v.roots.flatMap (v.fromRoot source))[calls]?
  nodup : ((v.roots.flatMap (v.fromRoot source)).map (·.key)).Nodup
  ascending_root : ∀ root ∈ v.roots,
    (v.fromRoot source root).Pairwise fun a b => KeyBefore (Within D) a.key b.key
  ascending : v.axis.spansSubtree →
    (v.roots.flatMap (v.fromRoot source)).Pairwise fun a b => KeyBefore (Within D) a.key b.key

theorem iteratesInOrder {D : DocumentId → Option Document} {context : NodeSet}
    (h : Numbered D context) (hfirst : ∀ node ∈ context.nodes, source.AttributesFirst node.doc)
    (axis : Axis) (test : NodeTest) (remember : Bool) :
    (ofContext axis test context remember).IteratesInOrder source D where
  ends _ := after_eq_none
  answers calls := answer_iteration _ source calls
  nodup := nodup_enumerate h hfirst
  ascending_root _ := pairwise_fromRoot_of_mem h hfirst
  ascending := pairwise_enumerate h hfirst

theorem numbered_ofList {D : DocumentId → Option Document} {nodes : List NodeRef}
    (h : ∀ node ∈ nodes, D node.doc.id = some node.doc ∧ node.doc.numbering.Numbers node.id) :
    Numbered D (NodeSet.ofList nodes) :=
  ⟨.ofList fun node hnode => (h node hnode).1, NodeSet.forall_mem_nodes_ofList
    (fun _ _ ha _ => ha) fun node hnode => (h node hnode).2⟩

/-- Takes every slot for a node, and every other one for an attribute. -/
def everySlot : NodeSource where
  kindOf _ id := some (if id % 2 = 0 then .attribute else .element)

/-- No matter of which document, attributes have the even slot of every window. -/
theorem attributesFirst_everySlot (id : DocumentId) :
    everySlot.AttributesFirst ⟨id, "", NodeSet.binary⟩ :=
  (by decide +kernel : everySlot.AttributesFirst ⟨⟨0⟩, "", NodeSet.binary⟩)

/-- Nodes of two documents, some twice and some below others. -/
def scattered : NodeSet := NodeSet.elements [(2, 3), (1, 2), (1, 3), (2, 1), (1, 3)]

def versions (id : DocumentId) : Option Document := some ⟨id, "", NodeSet.binary⟩

theorem iteratesInOrder_scattered :
    Numbered versions scattered ∧
      (∀ node ∈ scattered.nodes, everySlot.AttributesFirst node.doc) ∧
        (ofContext .descendantAttribute .anyNode scattered true).IteratesInOrder everySlot
          versions := by
  have hnumbered : Numbered versions scattered := by
    refine numbered_ofList fun node hnode => ?_
    obtain ⟨key, hkey, rfl⟩ := List.mem_map.mp hnode
    exact ⟨rfl, (by decide : ∀ key ∈ [(2, 3), (1, 2), (1, 3), (2, 1), (1, 3)],
      NodeSet.binary.Numbers key.2) key hkey⟩
  have hfirst : ∀ node ∈ scattered.nodes, everySlot.AttributesFirst node.doc := by
    intro node hnode
    rw [← Option.some_inj.mp (hnumbered.lies.of_mem_nodes hnode)]
    exact attributesFirst_everySlot node.doc.id
  exact ⟨hnumbered, hfirst, iteratesInOrder hnumbered hfirst .descendantAttribute .anyNode true⟩

end LazyNodes

end TreeAxes
