import Mathlib.Data.List.Sort
import TreeAxes.Proofs.Store.Walks

/-!
# Storing a tree is faithful

Slots are handed out by one recursion over the tree and widths of levels are measured by another,
and most slots of a ragged tree stay empty. Still, every node of the tree has an identifier of its
own that tells its depth and its parent, the nodes are listed in document order, and a walk from
the root that asks for kinds, names, values and children finds the tree again.
-/

namespace TreeAxes

/-! ## Outlines determine trees -/

/-- Lists whose first parts have a property that their second parts lack split in one way. -/
theorem append_inj_of_separated {α : Type} {p : α → Prop} {as as' bs bs' : List α}
    (h : as ++ bs = as' ++ bs') (has : ∀ a ∈ as, p a) (has' : ∀ a ∈ as', p a)
    (hbs : ∀ b ∈ bs, ¬ p b) (hbs' : ∀ b ∈ bs', ¬ p b) : as = as' ∧ bs = bs' := by
  induction as generalizing as' with
  | nil =>
    cases as' with
    | nil => exact ⟨rfl, h⟩
    | cons a' as' =>
      have hmem : a' ∈ bs := by
        rw [← bs.nil_append, h]
        exact List.mem_cons_self
      exact absurd (has' a' List.mem_cons_self) (hbs a' hmem)
  | cons a as ih =>
    cases as' with
    | nil =>
      have hmem : a ∈ bs' := by
        rw [← bs'.nil_append, ← h]
        exact List.mem_cons_self
      exact absurd (has a List.mem_cons_self) (hbs' a hmem)
    | cons a' as' =>
      rw [List.cons_append, List.cons_append, List.cons.injEq] at h
      obtain ⟨rfl, h⟩ := h
      obtain ⟨rfl, rfl⟩ := ih h (List.forall_mem_cons.mp has).2 (List.forall_mem_cons.mp has').2
      exact ⟨rfl, rfl⟩

namespace NodeLabel

theorem ofContent_injective : Function.Injective ofContent := by
  intro a b h
  cases a <;> cases b <;>
    simp_all [ofContent, Content.kind, Content.name?, Content.value?, QName.ofLocal]

theorem ofAttribute_injective : Function.Injective ofAttribute := by
  rintro ⟨name, value⟩ ⟨name', value'⟩ h
  simp_all [ofAttribute, QName.ofLocal]

end NodeLabel

namespace Tree

/-- Attributes are told from children by their kind. -/
theorem eq_of_outlines_eq {attributes attributes' : List Attribute} {children children' : List Tree}
    (h : attributes.map (fun a => Rose.node (NodeLabel.ofAttribute a) []) ++ children.map outline =
      attributes'.map (fun a => Rose.node (NodeLabel.ofAttribute a) []) ++ children'.map outline) :
    attributes = attributes' ∧ children.map outline = children'.map outline := by
  have hleaf (as : List Attribute) :
      ∀ t ∈ as.map fun a => Rose.node (NodeLabel.ofAttribute a) [], t.label.kind = .attribute := by
    intro t ht
    obtain ⟨a, -, rfl⟩ := List.mem_map.mp ht
    rfl
  have hinner (trees : List Tree) : ∀ t ∈ trees.map outline, t.label.kind ≠ .attribute := by
    intro t ht
    obtain ⟨tree, -, rfl⟩ := List.mem_map.mp ht
    exact tree.kind_outline_ne_attribute
  obtain ⟨hattributes, hchildren⟩ := append_inj_of_separated h (hleaf attributes)
    (hleaf attributes') (hinner children) (hinner children')
  refine ⟨List.map_injective_iff.mpr (fun a b hab => ?_) hattributes, hchildren⟩
  exact NodeLabel.ofAttribute_injective (Rose.node.inj hab).1

/-- An outline is that of one tree. -/
theorem outline_injective : Function.Injective outline := by
  intro tree
  induction tree with
  | node content attributes children ih =>
    rintro ⟨content', attributes', children'⟩ h
    rw [outline, outline, Rose.node.injEq] at h
    obtain rfl := NodeLabel.ofContent_injective h.1
    obtain ⟨rfl, hchildren⟩ := eq_of_outlines_eq h.2
    refine congrArg (Tree.node content attributes) ?_
    refine List.ext_getElem (by simpa using congrArg List.length hchildren) fun i hi hi' => ?_
    refine ih _ (List.getElem_mem hi) ?_
    have hget := congrArg (·[i]?) hchildren
    simpa [hi, hi'] using hget

end Tree

/-! ## Reading back -/

namespace Store

/-- What a store says of the node in a slot and of all that it finds below it. -/
def readBack (store : Store) (doc : Document) (slot : Slot) : Rose NodeLabel :=
  .node ⟨slot.kind, store.nameOf? doc.id slot.id, store.valueOf? doc.id slot.id⟩
    ((store.source.children doc slot.id).attach.map fun ⟨child, _⟩ => store.readBack doc child)
termination_by doc.numbering.depth - doc.numbering.levelOf slot.id
decreasing_by exact NodeSource.depth_sub_levelOf_lt_of_mem_children ‹_›

/-- What a store says of a document, read from its root. -/
def readDocument (store : Store) (doc : Document) : Option (Rose NodeLabel) :=
  (store.source.kindOf doc rootNode).map fun kind => store.readBack doc ⟨rootNode, kind⟩

variable {store : Store} {d : StoredDocument} {docId : DocumentId} {uri : String} {tree : Tree}
  {s : Rose StoredNode} {node : StoredNode}

theorem readBack_eq (store : Store) (doc : Document) (slot : Slot) :
    store.readBack doc slot =
      .node ⟨slot.kind, store.nameOf? doc.id slot.id, store.valueOf? doc.id slot.id⟩
        ((store.source.children doc slot.id).map (store.readBack doc)) := by
  rw [readBack, List.map_subtype fun _ _ => rfl, List.unattach_attach]

/-- The label that a store gives to a stored node is what it says of it. -/
theorem label_eq (h : d.Identifies) (hfound : store.document? d.doc.id = some d)
    (hnode : node ∈ d.nodes) :
    (⟨node.kind, store.nameOf? d.doc.id node.id, store.valueOf? d.doc.id node.id⟩ : NodeLabel) =
      node.label := by
  have hfind := (StoredDocument.node?_eq_some_iff h).mpr ⟨hnode, rfl⟩
  simp [nameOf?, valueOf?, hfound, hfind, StoredNode.label]

/-- The source finds the children of a stored node, and no others. -/
theorem children_eq (h : StoredDocument.ofTree docId uri tree = .ok d)
    (hfound : store.document? d.doc.id = some d)
    (hs : s ∈ (tree.numbered d.doc.numbering).subtrees) :
    store.source.children d.doc s.label.id =
      s.children.map fun c => ⟨c.label.id, c.label.kind⟩ := by
  obtain ⟨hlaid, hnodes⟩ := StoredDocument.laid_ofTree h
  have hidentifies := StoredDocument.identifies_ofTree h
  have hslaid := hlaid.of_mem_subtrees hs
  refine (NodeSource.pairwise_children _ _ _).eq_of_mem_iff
    (List.pairwise_map.mpr hslaid.pairwise_children) fun x => ?_
  rw [NodeSource.mem_children_iff_of_identifies hidentifies hfound hslaid.uses_label,
    List.mem_map]
  constructor
  · rintro ⟨⟨node, hnode, hid, hkind⟩, hparent⟩
    rw [hnodes] at hnode
    obtain ⟨c, hc, rfl⟩ := List.mem_map.mp hnode
    rw [← hid] at hparent
    exact ⟨c, (hlaid.parentOf_eq_iff hs hc).mp hparent, by rw [hid, hkind]⟩
  · rintro ⟨c, hc, rfl⟩
    have hmem := Rose.mem_subtrees_of_mem_children hs hc
    refine ⟨⟨c.label, ?_, rfl, rfl⟩, hslaid.parentOf_eq hc⟩
    rw [hnodes]
    exact List.mem_map_of_mem hmem

/-- A walk from a stored node finds all that is stored below it. -/
theorem readBack_eq_map (h : StoredDocument.ofTree docId uri tree = .ok d)
    (hfound : store.document? d.doc.id = some d)
    (hs : s ∈ (tree.numbered d.doc.numbering).subtrees) :
    store.readBack d.doc ⟨s.label.id, s.label.kind⟩ = s.map StoredNode.label := by
  induction s with
  | node a ts ih =>
    have hnode : a ∈ d.nodes := by
      rw [(StoredDocument.laid_ofTree h).2]
      exact List.mem_map_of_mem hs
    have hchildren := children_eq h hfound hs
    rw [Rose.label, Rose.children] at hchildren
    rw [Rose.label, readBack_eq, label_eq (StoredDocument.identifies_ofTree h) hfound hnode,
      hchildren, List.map_map, Rose.map]
    refine congrArg (Rose.node a.label) (List.map_congr_left fun t ht => ?_)
    exact ih t ht (Rose.mem_subtrees_of_mem_children hs ht)

/-- A store that holds what was made of a tree says of it what the tree does. -/
theorem readDocument_eq (h : StoredDocument.ofTree docId uri tree = .ok d)
    (hfound : store.document? d.doc.id = some d) :
    store.readDocument d.doc = some tree.outline := by
  obtain ⟨hlaid, hnodes⟩ := StoredDocument.laid_ofTree h
  have hroot := (tree.numbered d.doc.numbering).self_mem_subtrees
  have hid : (tree.numbered d.doc.numbering).label.id = rootNode := Rose.id_number _ _ _
  have hholds : d.Holds ⟨rootNode, (tree.numbered d.doc.numbering).label.kind⟩ :=
    ⟨_, hnodes ▸ List.mem_map_of_mem hroot, hid, rfl⟩
  have hread := readBack_eq_map h hfound hroot
  rw [hid] at hread
  rw [readDocument, (NodeSource.kindOf_eq_some_iff (StoredDocument.identifies_ofTree h)
    hfound).mpr hholds, Option.map_some, hread]
  exact congrArg some (Rose.map_label_number _ _ _)

end Store

/-! ## Stored documents -/

namespace StoredDocument

variable {d : StoredDocument} {docId : DocumentId} {uri : String} {tree : Tree}

/-- A document represents a tree under the identifiers that its nodes have in `numbered`. -/
structure Represents (d : StoredDocument) (tree : Tree) (numbered : Rose StoredNode) : Prop where
  /-- The nodes are those of the tree, the attributes of each before its children. -/
  labels : numbered.map StoredNode.label = tree.outline
  root : numbered.label.id = rootNode
  distinct : (numbered.preorder.map (·.id)).Nodup
  numbers : ∀ node ∈ numbered.preorder, d.doc.numbering.Numbers node.id
  /-- The numbering tells depths and parents. -/
  seated : numbered.Seated d.doc.numbering 0 noNode
  nodes : d.nodes = numbered.preorder
  ascending : d.nodes.Pairwise fun a b =>
    d.doc.numbering.compareDocumentOrder a.id b.id = .lt
  /-- A store that holds the document reads as this tree and as no other. -/
  reads : ∀ store : Store, store.document? d.doc.id = some d → ∀ other : Tree,
    store.readDocument d.doc = some other.outline ↔ other = tree

/-- Every tree that can be stored is represented by what is stored. -/
theorem exists_represents (h : ofTree docId uri tree = .ok d) :
    ∃ numbered, d.Represents tree numbered := by
  obtain ⟨hlaid, hnodes⟩ := laid_ofTree h
  have hroot : (tree.numbered d.doc.numbering).label.id = rootNode := Rose.id_number _ _ _
  refine ⟨tree.numbered d.doc.numbering, ?_⟩
  constructor
  · exact Rose.map_label_number _ _ _
  · exact hroot
  · exact hlaid.nodup
  · intro node hnode
    exact Numbering.numbers_iff_uses.mpr (hlaid.uses hnode)
  · have hseated := hlaid.seated
    rwa [hroot, Numbering.levelOf_rootNode, Numbering.parentOf_rootNode] at hseated
  · exact hnodes
  · rw [hnodes]
    exact hlaid.pairwise_lt
  · intro store hfound other
    rw [Store.readDocument_eq h hfound, Option.some_inj]
    exact ⟨fun houtline => (Tree.outline_injective houtline).symm, fun heq => by rw [heq]⟩

/-- An element with an attribute and three children, of which two have something below them. -/
def ragged : Tree :=
  .node (.element "book") [⟨"lang", "en"⟩]
    [.node (.element "title") [] [.leaf (.text "Axes")],
      .leaf (.comment "to do"),
      .node (.instruction "draft" "2") [⟨"by", "me"⟩, ⟨"on", "paper"⟩] []]

theorem exists_represents_ragged :
    ∃ d, ofTree ⟨1⟩ "ragged" ragged = .ok d ∧
      d.nodes.map (·.id) = [1, 2, 3, 8, 4, 5, 12, 13] ∧
      (Store.empty.add "ragged" ragged).2.document? d.doc.id = some d ∧
      ∃ numbered, d.Represents ragged numbered :=
  ⟨_, rfl, by decide +kernel, rfl, exists_represents rfl⟩

end StoredDocument

end TreeAxes
