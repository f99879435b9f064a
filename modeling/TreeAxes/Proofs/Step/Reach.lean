import TreeAxes.Proofs.NodeSet.Stored
import TreeAxes.Step.Evaluate

/-!
# What a step reaches

A store and a relation alone say which nodes a step should find from the nodes of its input:
`Store.Reaches`. The scan with a selector, the join with all nodes of a name, and the walks of a
wildcard step all find these, however they go about it.
-/

namespace TreeAxes

namespace Store

/-- Whether a stored node of the given kind stands in a relation to one of some context nodes. -/
def Reaches (store : Store) (relation : Relation) (kind : NodeKind) (contexts : List NodeRef)
    (key : DocumentId × Nat) : Prop :=
  ∃ d ∈ store.documents, d.doc.id = key.1 ∧ d.Holds ⟨key.2, kind⟩ ∧
    ∃ context ∈ contexts, context.doc.id = key.1 ∧ relation.Admits context.kind kind ∧
      relation.Relates d.doc.numbering context.id key.2

/-- Whether a stored node has a name. -/
def IsNamed (store : Store) (name : QName) (key : DocumentId × Nat) : Prop :=
  (store.nameOf? key.1 key.2).any (·.agrees name)

instance (store : Store) (relation : Relation) (kind : NodeKind) (contexts : List NodeRef)
    (key : DocumentId × Nat) : Decidable (store.Reaches relation kind contexts key) :=
  inferInstanceAs (Decidable (∃ d ∈ store.documents, _))

theorem nameOf?_eq (store : Store) (doc : DocumentId) (id : Nat) :
    store.nameOf? doc id =
      (store.document? doc).bind fun d => (d.nodes.find? (·.id = id)).bind (·.name) := by
  rw [nameOf?]
  refine Option.bind_congr fun d _ => ?_
  rw [d.node?_eq]
  rfl

/-- Names are looked up by going through the nodes: the table of a document is only faster. -/
instance (store : Store) (name : QName) (key : DocumentId × Nat) :
    Decidable (store.IsNamed name key) :=
  decidable_of_iff
    (((store.document? key.1).bind fun d => (d.nodes.find? (·.id = key.2)).bind (·.name)).any
      (·.agrees name)) (by rw [IsNamed, nameOf?_eq])

variable {store : Store} {d : StoredDocument} {node : StoredNode} {name : QName}

/-- What is reached lies in the documents of the context nodes. -/
theorem Reaches.mem_documents {relation : Relation} {kind : NodeKind} {input : NodeSet}
    {key : DocumentId × Nat} (h : store.Reaches relation kind input.nodes key) :
    key.1 ∈ input.documents.ids := by
  obtain ⟨d, hd, hid, hholds, context, hcontext, hcid, -⟩ := h
  refine NodeSet.mem_ids_documents.mpr ⟨context.id, ?_⟩
  exact NodeSet.mem_iff_exists_node.mpr ⟨context, hcontext, Prod.ext hcid rfl⟩

theorem isNamed_iff (h : store.Sound) (hd : d ∈ store.documents) (hnode : node ∈ d.nodes) :
    store.IsNamed name (d.doc.id, node.id) ↔ node.name.any (·.agrees name) := by
  have hfound := h.document?_eq_some_iff.mpr ⟨hd, rfl⟩
  have hnode := (StoredDocument.node?_eq_some_iff (h.identifies hd)).mpr ⟨hnode, rfl⟩
  rw [IsNamed, nameOf?]
  simp only [hfound, hnode, Option.bind_eq_bind, Option.bind_some]

theorem storedIn_ref (hd : d ∈ store.documents) (hnode : node ∈ d.nodes) :
    (d.ref node).StoredIn store := ⟨d, hd, rfl, node, hnode, rfl, rfl⟩

/-- The store hands out references to what it stores. -/
theorem storedIn_named (h : store.Sound) {doc : DocumentId} {label : String} {ref : NodeRef}
    (href : ref ∈ store.named doc label) : ref.StoredIn store := by
  rw [named] at href
  split at href
  · next d hfound =>
    obtain ⟨node, hnode, rfl⟩ := List.mem_map.mp href
    exact storedIn_ref (h.document?_eq_some_iff.mp hfound).1 (List.mem_filter.mp hnode).1
  · cases href

end Store

/-! ## Scans -/

namespace Index

theorem read_quiet (request : ScanRequest) (docs : List DocumentId) (store : Store) :
    quiet.read request docs store = (docs.flatMap (store.hitsIn request), store) := by
  induction docs with
  | nil => rfl
  | cons doc docs ih =>
    have hread : quiet.read request docs (store.applyAll []) = _ := ih
    rw [read]
    show (_ ++ (quiet.read request docs (store.applyAll [])).1,
      (quiet.read request docs (store.applyAll [])).2) = _
    rw [hread]
    rfl

/-- Undisturbed, a scan finds what the store holds now, unless it is to fail. -/
theorem scan_quiet (request : ScanRequest) (docs : DocumentSet) (store : Store) :
    quiet.scan request docs store =
      if store.failNext then
        (.error .injected, { store with scans := store.scans + 1, failNext := false })
      else
        (.ok (.ofList (docs.ids.flatMap (store.hitsIn request))),
          { store with scans := store.scans + 1 }) := by
  rw [scan]
  split
  · rfl
  · rw [read_quiet]
    rfl

end Index

/-- What is selected is the candidate, but for what it remembers. -/
theorem Selector.select?_same {s : Selector} {candidate ref : NodeRef}
    (h : s.select? candidate = some ref) :
    ref.doc = candidate.doc ∧ ref.id = candidate.id ∧ ref.kind = candidate.kind := by
  rw [select?] at h
  split at h
  · cases h
  · split at h
    all_goals
      rw [← Option.some_inj.mp h]
      exact ⟨rfl, rfl, rfl⟩

namespace ScanRequest

variable {store : Store} {request : ScanRequest} {doc : DocumentId} {ref : NodeRef}

/-- What the selector of a request makes of a candidate. -/
def admit? (request : ScanRequest) (candidate : NodeRef) : Option NodeRef :=
  match request.selector with
  | some selector => selector.select? candidate
  | none => some candidate

theorem admit?_same {candidate : NodeRef} (h : request.admit? candidate = some ref) :
    ref.doc = candidate.doc ∧ ref.id = candidate.id ∧ ref.kind = candidate.kind := by
  rw [admit?] at h
  split at h
  · exact Selector.select?_same h
  · rw [← Option.some_inj.mp h]
    exact ⟨rfl, rfl, rfl⟩

/-- A hit is a stored node of the kind that is looked for, as the selector made it. -/
theorem exists_of_mem_hitsIn (h : ref ∈ store.hitsIn request doc) :
    ∃ stored, store.document? doc = some stored ∧ ∃ node ∈ stored.nodes,
      node.kind = request.kind.nodeKind ∧ request.admit? (stored.ref node) = some ref := by
  rw [Store.hitsIn] at h
  split at h
  · next stored hstored =>
    obtain ⟨node, hnode, hhit⟩ := List.mem_filterMap.mp h
    split at hhit
    · next hkind => exact ⟨stored, hstored, node, (List.mem_filter.mp hnode).1, hkind, hhit⟩
    · cases hhit
  · cases h

/-- Without a selector, a hit remembers nothing. -/
theorem context_of_mem_hitsIn {kind : IndexedKind} {name : QName}
    (h : ref ∈ store.hitsIn ⟨kind, name, none⟩ doc) : ref.context = [] := by
  obtain ⟨stored, -, node, -, -, hadmit⟩ := exists_of_mem_hitsIn h
  rw [← Option.some_inj.mp hadmit]
  rfl

theorem mem_hitsIn_iff (h : store.Sound) :
    ref ∈ store.hitsIn request doc ↔
      ∃ d ∈ store.documents, d.doc.id = doc ∧ ∃ node ∈ d.nodes,
        store.IsNamed request.name (d.doc.id, node.id) ∧ node.kind = request.kind.nodeKind ∧
          request.admit? (d.ref node) = some ref := by
  have hhits (d : StoredDocument) (hd : d ∈ store.documents) :
      ref ∈ request.hits d ↔ ∃ node ∈ d.nodes,
        store.IsNamed request.name (d.doc.id, node.id) ∧ node.kind = request.kind.nodeKind ∧
          request.admit? (d.ref node) = some ref := by
    rw [hits, List.mem_filterMap]
    refine exists_congr fun node => ?_
    rw [StoredDocument.named, List.mem_filter, and_assoc]
    refine and_congr_right fun hnode => ?_
    rw [Store.isNamed_iff h hd hnode]
    refine and_congr_right fun _ => ?_
    split
    · next hkind => exact (and_iff_right hkind).symm
    · next hkind => exact iff_of_false nofun fun hk => hkind hk.1
  rw [Store.hitsIn]
  split
  · next d hfound =>
    obtain ⟨hd, rfl⟩ := h.document?_eq_some_iff.mp hfound
    rw [hhits d hd]
    constructor
    · exact fun hnode => ⟨d, hd, rfl, hnode⟩
    · rintro ⟨e, he, hid, hnode⟩
      rwa [h.eq_of_id he hd hid] at hnode
  · next hnone =>
    constructor
    · intro hmem
      cases hmem
    · rintro ⟨d, hd, hid, -⟩
      rw [h.document?_eq_some_iff.mpr ⟨hd, hid⟩] at hnone
      cases hnone

theorem storedIn_of_mem_hitsIn (h : store.Sound) (href : ref ∈ store.hitsIn request doc) :
    ref.StoredIn store := by
  obtain ⟨d, hfound, node, hnode, -, hadmit⟩ := exists_of_mem_hitsIn href
  obtain ⟨hdoc, hid, hkind⟩ := admit?_same hadmit
  exact ⟨d, (h.document?_eq_some_iff.mp hfound).1, hdoc, node, hnode, hid.symm, hkind.symm⟩

end ScanRequest

namespace Selector

variable {store : Store} {s : Selector} {candidate ref : NodeRef}

theorem anchors_ofContext (relation : Relation) (input : NodeSet) (remember : Bool)
    (candidate : NodeRef) :
    (ofContext relation input remember).anchors candidate =
      (input.sort.part? candidate.doc.id).elim [] (anchorsIn relation · candidate.id) := by
  have hcontext : (ofContext relation input remember).context = input.sort := rfl
  rw [anchors, hcontext]
  cases input.sort.part? candidate.doc.id with
  | none => rfl
  | some p => rfl

theorem exists_select?_iff : (∃ ref, s.select? candidate = some ref) ↔
    ∃ context, context ∈ s.anchors candidate := by
  rw [select?]
  split
  · next hnone =>
    rw [hnone]
    exact iff_of_false (fun h => nomatch h.choose_spec) fun h => nomatch h.choose_spec
  · next first rest hsome =>
    rw [hsome]
    refine iff_of_true ?_ ⟨first, List.mem_cons_self⟩
    split
    · exact ⟨_, rfl⟩
    · exact ⟨_, rfl⟩

section

variable (h : store.Sound) {input : NodeSet} (hinput : input.StoredIn store) {d : StoredDocument}
  (hd : d ∈ store.documents) {node : StoredNode} (hnode : node ∈ d.nodes) {relation : Relation}
  (hback : relation.looksBack) (remember : Bool)

include h hinput hd hnode hback

/-- The anchors of a stored node are the context nodes that it stands in the relation to. -/
theorem mem_anchors_ofContext_iff {context : NodeRef} :
    context ∈ (ofContext relation input remember).anchors (d.ref node) ↔
      (context ∈ input.sort.nodes ∧ context.doc.id = d.doc.id) ∧
        relation.Relates d.doc.numbering context.id node.id := by
  have huses : d.doc.numbering.Uses node.id := (h.identifies hd).uses node hnode
  have hdoc : (d.ref node).doc = d.doc := rfl
  have hid : (d.ref node).id = node.id := rfl
  rw [anchors_ofContext, NodeSet.mem_nodes_iff_part?, hdoc, hid]
  cases hpart : input.sort.part? d.doc.id with
  | none => simp
  | some p =>
    have hpdoc := hinput.sort.part?_doc h hd hpart
    have hready := hinput.sort.ready h input.sort_order (NodeSet.part?_eq_some_iff.mp hpart).1
    rw [Option.elim_some, mem_anchorsIn_iff hready (hpdoc ▸ huses) hback, hpdoc]
    simp

/-- A selector over stored nodes takes the stored nodes in the relation to one of them. -/
theorem exists_select?_ofContext_iff :
    (∃ ref, (ofContext relation input remember).select? (d.ref node) = some ref) ↔
      ∃ context ∈ input.nodes, context.doc.id = d.doc.id ∧
        relation.Relates d.doc.numbering context.id node.id := by
  rw [exists_select?_iff]
  simp only [mem_anchors_ofContext_iff h hinput hd hnode hback]
  constructor
  · rintro ⟨context, ⟨hcontext, hid⟩, hrelates⟩
    obtain ⟨other, hother, hdoc, hoid, -⟩ :=
      hinput.sort.exists_same hinput h (fun _ => NodeSet.mem_sort) hcontext
    exact ⟨other, hother, hdoc ▸ hid, hoid ▸ hrelates⟩
  · rintro ⟨context, hcontext, hid, hrelates⟩
    obtain ⟨other, hother, hdoc, hoid, -⟩ :=
      hinput.exists_same hinput.sort h (fun _ => NodeSet.mem_sort.symm) hcontext
    exact ⟨other, ⟨hother, hdoc ▸ hid⟩, hoid ▸ hrelates⟩

end

end Selector

end TreeAxes
