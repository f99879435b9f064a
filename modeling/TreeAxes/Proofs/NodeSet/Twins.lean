import TreeAxes.Selector
import TreeAxes.Proofs.NodeSet.Contexts

/-!
# Twins

An operation on a set that does not count as a change may sort the set, merge the copies of a node
or record contexts. The set that is left is a twin of the one before: it has the same documents
and the same nodes, but for addresses and contexts. Lookups cannot tell twins apart: what they
find is the same, once addresses and contexts are left out.
-/

namespace TreeAxes

namespace Bisection

variable {α β : Type} (p : β → Bool) (f : α → β) (xs : Array α)

theorem lastFrom_map (base size : Nat) :
    lastFrom p (xs.map f) base size = lastFrom (p ∘ f) xs base size := by
  fun_induction lastFrom (p ∘ f) xs base size with
  | case1 base size hsize ih =>
    rw [lastFrom, if_pos hsize, Array.getElem?_map, Option.any_map]
    exact ih
  | case2 base size hsize => rw [lastFrom, if_neg hsize]

theorem last_map : last p (xs.map f) = last (p ∘ f) xs := by
  rw [last, last, Array.size_map, lastFrom_map]

theorem count_map : count p (xs.map f) = count (p ∘ f) xs := by
  rw [count, count, last_map, Array.getElem?_map, Option.any_map]
  rfl

end Bisection

namespace NodeRef

/-- The reference without address and context. -/
def bare (node : NodeRef) : NodeRef := { doc := node.doc, id := node.id, kind := node.kind }

variable {a b : NodeRef}

@[simp] theorem bare_doc (node : NodeRef) : node.bare.doc = node.doc := rfl

@[simp] theorem bare_id (node : NodeRef) : node.bare.id = node.id := rfl

@[simp] theorem bare_kind (node : NodeRef) : node.bare.kind = node.kind := rfl

@[simp] theorem bare_pushContext (node : NodeRef) (c : ContextNode) :
    (node.pushContext c).bare = node.bare := by simp [bare]

theorem bare_eq_iff : a.bare = b.bare ↔ a.doc = b.doc ∧ a.id = b.id ∧ a.kind = b.kind := by
  simp [bare]

theorem key_eq_of_bare (h : a.bare = b.bare) : a.key = b.key :=
  show a.bare.key = b.bare.key from congrArg key h

end NodeRef

/-! ## Lookups in bare partitions -/

namespace Partition

variable (p : Partition)

/-- The partition without addresses and contexts. -/
def bare : Partition := { p with entries := p.entries.map NodeRef.bare }

theorem nodes_bare : p.bare.nodes = p.nodes.map NodeRef.bare := Array.toList_map

theorem find?_bare (id : Nat) : p.bare.find? id = (p.find? id).map NodeRef.bare := by
  have hplace : p.bare.place id = p.place id := Bisection.last_map _ _ _
  rw [find?, find?, hplace, bare, Array.getElem?_map]
  cases p.entries[p.place id]? with
  | none => rfl
  | some node =>
    rw [Option.map_some, Option.filter_some, Option.filter_some, NodeRef.bare_id]
    split <;> rfl

theorem range_bare (lower upper : Nat) :
    p.bare.range lower upper = (p.range lower upper).map NodeRef.bare := by
  rw [range, range, bare, Bisection.count_map, Bisection.count_map, ← Array.toList_map,
    Array.map_extract]
  rfl

theorem children_bare (parent : Nat) :
    p.bare.children parent = (p.children parent).map NodeRef.bare := by
  rw [children, children, show p.bare.doc = p.doc from rfl]
  cases p.doc.numbering.window? parent with
  | none => rfl
  | some window => exact p.range_bare window.first window.last

theorem climbToEntry_bare (directOnly : Bool) (level id : Nat) :
    p.bare.climbToEntry directOnly level id =
      (p.climbToEntry directOnly level id).map NodeRef.bare := by
  induction level generalizing id with
  | zero => rfl
  | succ level ih =>
    simp only [climbToEntry, find?_bare, show p.bare.doc = p.doc from rfl]
    split
    · rfl
    · cases p.find? (p.doc.numbering.parentAt id (level + 1)) with
      | some node => rfl
      | none =>
        cases directOnly with
        | true => rfl
        | false => exact ih _

theorem nearest_bare (id : Nat) (directOnly includeSelf : Bool) (level : Option Nat) :
    p.bare.nearest id directOnly includeSelf level =
      (p.nearest id directOnly includeSelf level).map NodeRef.bare := by
  rw [nearest, nearest, climbToEntry_bare, find?_bare, show p.bare.doc = p.doc from rfl]
  cases includeSelf with
  | false => rfl
  | true => cases p.find? id <;> rfl

theorem entriesAbove_bare (level id : Nat) :
    p.bare.entriesAbove level id = (p.entriesAbove level id).map NodeRef.bare := by
  induction level generalizing id with
  | zero => rfl
  | succ level ih =>
    simp only [entriesAbove, find?_bare, List.map_append, ih, show p.bare.doc = p.doc from rfl]
    cases p.find? (p.doc.numbering.parentAt id (level + 1)) <;> rfl

theorem toList_find?_bare (includeSelf : Bool) (id : Nat) :
    (if includeSelf then (p.bare.find? id).toList else []) =
      (if includeSelf then (p.find? id).toList else []).map NodeRef.bare := by
  rw [find?_bare]
  cases includeSelf with
  | false => rfl
  | true => cases p.find? id <;> rfl

theorem ancestors_bare (id : Nat) (includeSelf : Bool) :
    p.bare.ancestors id includeSelf = (p.ancestors id includeSelf).map NodeRef.bare := by
  rw [ancestors, ancestors, toList_find?_bare, entriesAbove_bare, List.map_append]
  rfl

theorem blocks_bare (ancestor : Nat) : p.bare.blocks ancestor = p.blocks ancestor := by
  rw [blocks, blocks, bare, Array.back?_map]
  cases p.entries.back? <;> rfl

theorem descendants_bare (ancestor : Nat) (includeSelf : Bool) :
    p.bare.descendants ancestor includeSelf =
      (p.descendants ancestor includeSelf).map NodeRef.bare := by
  rw [descendants, descendants, toList_find?_bare, blocks_bare, List.map_append, List.map_flatMap]
  simp only [range_bare]

end Partition

theorem Selector.anchorsIn_bare (relation : Relation) (p : Partition) (id : Nat) :
    anchorsIn relation p.bare id = (anchorsIn relation p id).map NodeRef.bare := by
  have htoList (found : Option NodeRef) :
      (found.map NodeRef.bare).toList = found.toList.map NodeRef.bare := by
    cases found <;> rfl
  cases relation with
  | child => rw [anchorsIn, anchorsIn, p.nearest_bare, htoList]
  | descendant includeSelf => exact p.ancestors_bare id includeSelf
  | parent => exact p.children_bare id
  | ancestor includeSelf => exact p.descendants_bare id includeSelf
  | self => rw [anchorsIn, anchorsIn, p.find?_bare, htoList]
  | sibling direction => rfl
  | beyond direction => rfl

/-! ## Twin sets -/

namespace Partition

variable {p q : Partition}

/-- Merging copies that agree changes no bare node. -/
theorem mem_bare_mergeCopies
    (h : ∀ a ∈ p.nodes, ∀ b ∈ p.nodes, a.id = b.id → a.bare = b.bare) (node : NodeRef) :
    node ∈ p.mergeCopies.nodes.map NodeRef.bare ↔ node ∈ p.nodes.map NodeRef.bare := by
  have hcopy (merged : NodeRef) (hmerged : merged ∈ p.mergeCopies.nodes) :
      ∃ copy ∈ p.nodes, merged.bare = copy.bare := by
    obtain ⟨copy, hcopy, hsame⟩ := exists_same_of_merged? (mem_mergeCopies_iff.mp hmerged)
    exact ⟨copy, (List.mem_filter.mp hcopy).1, NodeRef.bare_eq_iff.mpr hsame⟩
  constructor
  · intro hnode
    obtain ⟨merged, hmerged, rfl⟩ := List.mem_map.mp hnode
    obtain ⟨copy, hcopy, hbare⟩ := hcopy merged hmerged
    exact List.mem_map.mpr ⟨copy, hcopy, hbare.symm⟩
  · intro hnode
    obtain ⟨copy, hmem, rfl⟩ := List.mem_map.mp hnode
    obtain ⟨merged, hmerged, hid⟩ :=
      List.mem_map.mp ((p.mem_ids_mergeCopies copy.id).mpr (List.mem_map_of_mem hmem))
    obtain ⟨other, hother, hbare⟩ := hcopy merged hmerged
    have hsame := h other hother copy hmem ((congrArg NodeRef.id hbare).symm.trans hid)
    exact List.mem_map.mpr ⟨merged, hmerged, hbare.trans hsame⟩

/-- Sorted partitions of the same bare nodes are the same, once they are bare. -/
theorem bare_eq_of_ascending (hdoc : p.doc = q.doc) (hp : p.nodes.Pairwise (·.id < ·.id))
    (hq : q.nodes.Pairwise (·.id < ·.id))
    (h : ∀ node, node ∈ p.nodes.map NodeRef.bare ↔ node ∈ q.nodes.map NodeRef.bare) :
    p.bare = q.bare := by
  refine eq_of_nodes_eq hdoc ?_
  rw [nodes_bare, nodes_bare]
  exact eq_of_ascending (List.pairwise_map.mpr hp) (List.pairwise_map.mpr hq) h

end Partition

namespace NodeSet

variable {s t : NodeSet}

/-- The copies of one node carry the same kind and the same document. -/
def Uniform (s : NodeSet) : Prop :=
  ∀ a ∈ s.nodes, ∀ b ∈ s.nodes, a.key = b.key → a.kind = b.kind ∧ a.doc = b.doc

/-- Sets of the same documents and the same nodes, but for addresses and contexts. -/
structure Twin (s t : NodeSet) : Prop where
  docs : s.parts.map (·.doc) = t.parts.map (·.doc)
  mem_iff : ∀ node, node ∈ s.nodes.map NodeRef.bare ↔ node ∈ t.nodes.map NodeRef.bare

theorem Uniform.bare_eq (h : s.Uniform) {p : Partition} (hp : p ∈ s.parts) {a b : NodeRef}
    (ha : a ∈ p.nodes) (hb : b ∈ p.nodes) (hid : a.id = b.id) : a.bare = b.bare := by
  have hkey : a.key = b.key :=
    Prod.ext (((s.owned p hp).2 a ha).trans ((s.owned p hp).2 b hb).symm) hid
  obtain ⟨hkind, hdoc⟩ :=
    h a (mem_nodes_of_mem_part hp ha) b (mem_nodes_of_mem_part hp hb) hkey
  exact NodeRef.bare_eq_iff.mpr ⟨hdoc, hid, hkind⟩

theorem mem_ofList_iff_map {nodes : List NodeRef} {key : DocumentId × Nat} :
    key ∈ ofList nodes ↔ key ∈ nodes.map (·.key) := by
  rw [mem_ofList, List.mem_map]
  exact exists_congr fun node => and_congr_right fun _ => eq_comm

namespace Twin

theorem refl (s : NodeSet) : s.Twin s := ⟨rfl, fun _ => Iff.rfl⟩

theorem symm (h : s.Twin t) : t.Twin s := ⟨h.docs.symm, fun node => (h.mem_iff node).symm⟩

theorem trans {u : NodeSet} (h : s.Twin t) (h' : t.Twin u) : s.Twin u :=
  ⟨h.docs.trans h'.docs, fun node => (h.mem_iff node).trans (h'.mem_iff node)⟩

theorem exists_bare_eq (h : s.Twin t) {node : NodeRef} (hnode : node ∈ s.nodes) :
    ∃ other ∈ t.nodes, other.bare = node.bare :=
  List.mem_map.mp ((h.mem_iff _).mp (List.mem_map_of_mem hnode))

theorem uniform (h : s.Twin t) (hs : s.Uniform) : t.Uniform := by
  intro a ha b hb hkey
  obtain ⟨a', ha', hbarea⟩ := h.symm.exists_bare_eq ha
  obtain ⟨b', hb', hbareb⟩ := h.symm.exists_bare_eq hb
  obtain ⟨hdoca, -, hkinda⟩ := NodeRef.bare_eq_iff.mp hbarea
  obtain ⟨hdocb, -, hkindb⟩ := NodeRef.bare_eq_iff.mp hbareb
  obtain ⟨hkind, hdoc⟩ := hs a' ha' b' hb'
    ((NodeRef.key_eq_of_bare hbarea).trans (hkey.trans (NodeRef.key_eq_of_bare hbareb).symm))
  exact ⟨hkinda.symm.trans (hkind.trans hkindb), hdoca.symm.trans (hdoc.trans hdocb)⟩

theorem mem_key_iff (h : s.Twin t) {key : DocumentId × Nat} : key ∈ s ↔ key ∈ t := by
  have hbare (u : NodeSet) : key ∈ u ↔ ∃ node ∈ u.nodes.map NodeRef.bare, node.key = key := by
    rw [mem_iff_exists_node]
    simp only [List.mem_map, exists_exists_and_eq_and]
    rfl
  rw [hbare, hbare]
  exact exists_congr fun node => and_congr_left fun _ => h.mem_iff node

theorem documents_eq (h : s.Twin t) : s.documents = t.documents := by
  rw [documents, documents, h.docs]

/-- Partitions may be changed if their documents and their bare nodes stay. -/
theorem of_parts {f : Partition → Partition} (hparts : t.parts = s.parts.map f)
    (hdoc : ∀ p, (f p).doc = p.doc)
    (hmem : ∀ p ∈ s.parts, ∀ node,
      node ∈ (f p).nodes.map NodeRef.bare ↔ node ∈ p.nodes.map NodeRef.bare) : s.Twin t where
  docs := by
    rw [hparts, List.map_map]
    exact (List.map_congr_left fun p _ => hdoc p).symm
  mem_iff node := by
    rw [NodeSet.nodes, NodeSet.nodes, hparts, List.flatMap_map, List.map_flatMap,
      List.map_flatMap, List.mem_flatMap, List.mem_flatMap]
    exact exists_congr fun p => and_congr_right fun hp => (hmem p hp node).symm

theorem sort (hs : s.Uniform) : s.Twin s.sort :=
  of_parts s.parts_sort (fun _ => rfl) fun p hp =>
    p.mem_bare_mergeCopies fun _ ha _ hb => hs.bare_eq hp ha hb

theorem sortInDocumentOrder (hs : s.Uniform) : s.Twin s.sortInDocumentOrder := by
  refine of_parts s.parts_sortInDocumentOrder (fun _ => rfl) fun p hp node => ?_
  rw [← p.mem_bare_mergeCopies (fun _ ha _ hb => hs.bare_eq hp ha hb) node]
  exact (p.mergeCopies.perm_sortInDocumentOrder.map _).mem_iff

theorem setSelfAsContext (s : NodeSet) : s.Twin s.setSelfAsContext := by
  refine of_parts rfl (fun _ => rfl) fun p _ node => ?_
  rw [Partition.nodes_setSelfAsContext, List.map_map]
  exact iff_of_eq (congrArg _ (List.map_congr_left fun a _ => a.bare_pushContext _))

/-- What a sorted set has of a document, its sorted twin has as well. -/
theorem part?_bare (h : s.Twin t) (hs : s.order = .byId) (ht : t.order = .byId)
    (doc : DocumentId) : (s.part? doc).map Partition.bare = (t.part? doc).map Partition.bare := by
  have hdocs : (s.part? doc).map (·.doc) = (t.part? doc).map (·.doc) := by
    have hfind (u : NodeSet) :
        (u.part? doc).map (·.doc) = (u.parts.map (·.doc)).find? (·.id = doc) := by
      rw [List.find?_map]
      rfl
    rw [hfind, hfind, h.docs]
  have hsub {u v : NodeSet} (huv : u.Twin v) {p q : Partition} (hp : u.part? doc = some p)
      (hq : v.part? doc = some q) :
      ∀ node ∈ p.nodes.map NodeRef.bare, node ∈ q.nodes.map NodeRef.bare := by
    intro node hnode
    obtain ⟨a, ha, rfl⟩ := List.mem_map.mp hnode
    obtain ⟨hmem, hdoc⟩ := mem_nodes_iff_part?.mpr ⟨p, hp, ha⟩
    obtain ⟨b, hb, hbare⟩ := huv.exists_bare_eq hmem
    have hbdoc : b.doc.id = doc := by rw [(NodeRef.bare_eq_iff.mp hbare).1, hdoc]
    obtain ⟨q', hq', hbq⟩ := mem_nodes_iff_part?.mp ⟨hb, hbdoc⟩
    obtain rfl := Option.some_inj.mp (hq.symm.trans hq')
    exact List.mem_map.mpr ⟨b, hbq, hbare⟩
  cases hp : s.part? doc with
  | none =>
    rw [hp] at hdocs
    rw [Option.map_eq_none_iff.mp hdocs.symm]
  | some p =>
    rw [hp] at hdocs
    obtain ⟨q, hq, hdoc⟩ := Option.map_eq_some_iff.mp hdocs.symm
    rw [hq]
    refine congrArg some (Partition.bare_eq_of_ascending hdoc.symm ?_ ?_ fun node => ⟨?_, ?_⟩)
    · exact pairwise_nodes_of_byId hs p (part?_eq_some_iff.mp hp).1
    · exact pairwise_nodes_of_byId ht q (part?_eq_some_iff.mp hq).1
    · exact hsub h hp hq node
    · exact hsub h.symm hq hp node

/-- From twins the same is collected, if nothing is asked of addresses and contexts. -/
theorem mem_flatMap_iff {α β : Type} (h : s.Twin t) {f : NodeRef → List α} {g : α → β}
    (hf : ∀ node : NodeRef, (f node.bare).map g = (f node).map g) (x : β) :
    x ∈ (s.nodes.flatMap f).map g ↔ x ∈ (t.nodes.flatMap f).map g := by
  have hbare (u : NodeSet) : x ∈ (u.nodes.flatMap f).map g ↔
      ∃ node ∈ u.nodes.map NodeRef.bare, x ∈ (f node).map g := by
    simp only [List.map_flatMap, List.mem_flatMap, List.mem_map (f := NodeRef.bare),
      exists_exists_and_eq_and, hf]
  rw [hbare, hbare]
  exact exists_congr fun node => and_congr_left fun _ => h.mem_iff node

theorem mem_ofList_flatMap_iff (h : s.Twin t) {f : NodeRef → List NodeRef}
    (hf : ∀ node : NodeRef, (f node.bare).map (·.key) = (f node).map (·.key))
    {key : DocumentId × Nat} :
    key ∈ ofList (s.nodes.flatMap f) ↔ key ∈ ofList (t.nodes.flatMap f) := by
  rw [mem_ofList_iff_map, mem_ofList_iff_map]
  exact h.mem_flatMap_iff hf key

end Twin

/-! ## Operations -/

/-- How often an operation changes a set: once for each single addition or removal. -/
def mutations (s : NodeSet) : Operation → Nat
  | .add _ => 1
  | .addAll nodes => nodes.length
  | .addSet other => other.nodes.length
  | .remove node => if (s.remove node).1 then 1 else 0
  | _ => 0

theorem perform_revision (s : NodeSet) (operation : Operation) :
    (s.perform operation).revision = s.revision + UInt32.ofNat (s.mutations operation) := by
  have hkept {t : NodeSet} (ht : t.revision = s.revision) :
      t.revision = s.revision + UInt32.ofNat 0 := ht.trans (UInt32.add_zero _).symm
  cases operation with
  | add node => rfl
  | addAll nodes => exact s.addAll_revision nodes
  | addSet other => exact s.addAll_revision other.nodes
  | remove node =>
    refine (s.remove_revision node).trans (congrArg (s.revision + ·) ?_)
    exact (apply_ite UInt32.ofNat _ _ _).symm
  | setSelfAsContext => exact hkept rfl
  | _ =>
    exact hkept (perform_of_asks (motive := (·.revision = s.revision)) rfl rfl s.sort_revision
      s.sortInDocumentOrder_revision)

/-- A removal that changes nothing has the set sorted. -/
theorem perform_remove_eq_sort {node : NodeRef} (hnone : s.mutations (.remove node) = 0) :
    s.perform (.remove node) = s.sort := by
  have hmissing : ¬(s.remove node).1 := by
    intro hfound
    rw [mutations, if_pos hfound] at hnone
    cases hnone
  show (s.remove node).2 = s.sort
  rw [remove] at hmissing ⊢
  split at hmissing
  · exact absurd rfl hmissing
  · next hlookup => rw [if_neg hlookup]

/-- An operation that changes nothing leaves a twin. -/
theorem Uniform.twin_perform (h : s.Uniform) {operation : Operation}
    (hnone : s.mutations operation = 0) : s.Twin (s.perform operation) := by
  have haddAll {nodes : List NodeRef} (hnil : nodes.length = 0) : s.Twin (s.addAll nodes) := by
    rw [List.eq_nil_of_length_eq_zero hnil]
    exact .refl s
  cases operation with
  | add node => cases hnone
  | addAll nodes => exact haddAll hnone
  | addSet other => exact haddAll hnone
  | remove node =>
    rw [perform_remove_eq_sort hnone]
    exact .sort h
  | setSelfAsContext => exact .setSelfAsContext s
  | _ => exact perform_of_asks (motive := s.Twin) rfl (.refl s) (.sort h) (.sortInDocumentOrder h)

end NodeSet

end TreeAxes
