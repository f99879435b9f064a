import TreeAxes.Proofs.Step.Agreement
import TreeAxes.Proofs.Step.Found

/-!
# Walks are joins

A wildcard step beside or beyond its context nodes climbs from each of them and goes through the
subtrees that it passes. A join does the same over a set: it compares all nodes of the documents
with each context node. The walk gives what the join gives of the nodes that pass the test, and
remembers the same.
-/

namespace TreeAxes

namespace Store

variable {store : Store} {docs : DocumentSet} {key : DocumentId × Nat}

/-- All nodes that are stored in some documents. -/
def allNodes (store : Store) (docs : DocumentSet) : NodeSet :=
  .ofList (docs.ids.flatMap fun doc =>
    match store.document? doc with
    | some d => d.nodes.map d.ref
    | none => [])

theorem exists_of_mem_allNodes (h : store.Nested) {ref : NodeRef}
    (href : ref ∈ docs.ids.flatMap fun doc =>
      match store.document? doc with
      | some d => d.nodes.map d.ref
      | none => []) :
    ∃ d ∈ store.documents, d.doc.id ∈ docs.ids ∧ ∃ node ∈ d.nodes, ref = d.ref node := by
  obtain ⟨doc, hdoc, href⟩ := List.mem_flatMap.mp href
  split at href
  · next d hfound =>
    obtain ⟨node, hnode, rfl⟩ := List.mem_map.mp href
    obtain ⟨hd, rfl⟩ := h.document?_eq_some_iff.mp hfound
    exact ⟨d, hd, hdoc, node, hnode, rfl⟩
  · cases href

theorem storedIn_allNodes (h : store.Nested) : (store.allNodes docs).StoredIn store := by
  refine NodeSet.storedIn_ofList h fun ref href => ?_
  obtain ⟨d, hd, -, node, hnode, rfl⟩ := exists_of_mem_allNodes h href
  exact storedIn_ref hd hnode

theorem context_of_mem_allNodes (h : store.Nested) {ref : NodeRef}
    (href : ref ∈ (store.allNodes docs).nodes) : ref.context = [] := by
  refine List.eq_nil_iff_forall_not_mem.mpr fun c hc => ?_
  obtain ⟨other, hother, -, hc⟩ := NodeSet.recalls_ofList.mp ⟨ref, href, rfl, hc⟩
  obtain ⟨d, -, -, node, -, rfl⟩ := exists_of_mem_allNodes h hother
  cases hc

/-- Whatever is reached from an input is a node of its documents. -/
theorem Reaches.mem_allNodes {relation : Relation} {kind : NodeKind} {input : NodeSet}
    (hreaches : store.Reaches relation kind input.nodes key) (h : store.Nested) :
    key ∈ store.allNodes input.documents := by
  have hdoc := hreaches.mem_documents
  obtain ⟨d, hd, hid, ⟨node, hnode, hnid, -⟩, -⟩ := hreaches
  refine NodeSet.mem_ofList.mpr ⟨d.ref node, ?_, Prod.ext hid.symm hnid.symm⟩
  refine List.mem_flatMap.mpr ⟨d.doc.id, hid ▸ hdoc, ?_⟩
  rw [h.document?_eq_some_iff.mpr ⟨hd, rfl⟩]
  exact List.mem_map_of_mem hnode

end Store

namespace Plan

variable {plan : Plan} {input : InputSet} {store : Store} {relation : Relation}

namespace Walks

/-- Beside and beyond a node, neither elements alone nor the node itself are looked for. -/
theorem axis_spec (h : plan.Walks) :
    plan.axis.elementsOnly = false ∧ plan.axis ≠ .ancestorOrSelf ∧ plan.axis ≠ .self ∧
      plan.axis ∉ [.self, .child, .attribute, .descendant, .descendantOrSelf,
        .descendantAttribute] := by
  have hall : ∀ axis ∈ [Axis.followingSibling, .precedingSibling, .following, .preceding],
      axis.elementsOnly = false ∧ axis ≠ .ancestorOrSelf ∧ axis ≠ .self ∧
        axis ∉ [.self, .child, .attribute, .descendant, .descendantOrSelf,
          .descendantAttribute] := by decide
  exact hall plan.axis h.2

theorem opens (h : plan.Walks) (kind : NodeKind) (own : Prop) : plan.axis.Opens kind own := by
  have hall : ∀ axis ∈ [Axis.followingSibling, .precedingSibling, .following, .preceding],
      axis.Opens kind own := by
    simp [Axis.Opens]
  exact hall plan.axis h.2

theorem mayMatch (h : plan.Walks) : plan.axis.elementsOnly → plan.test.mayMatchElement := by
  rw [h.axis_spec.1]
  exact nofun

/-- A walk gathers its nodes at once. -/
theorem exists_stream_eq (h : plan.Walks) (source : NodeSource) (input : NodeSet)
    (remember : Bool) : ∃ set, plan.stream source input remember = .nodes set := by
  obtain ⟨-, haxis⟩ := h
  rw [stream]
  cases hcase : plan.axis with
  | followingSibling | precedingSibling | following | preceding => exact ⟨_, rfl⟩
  | _ => simp [hcase] at haxis

/-- What a walk goes over is what a relation reaches, of the kinds that pass the test. -/
theorem keepsOrigins_stream (h : plan.Walks) (hrelation : plan.axis.relation? = some relation)
    (hstore : store.Nested) {input : NodeSet} (hinput : input.StoredIn store) (remember : Bool) :
    ((plan.stream store.source input remember).toNodeSet store.source).KeepsOrigins store relation
      input.nodes (fun _ kind => plan.test.matchesKind kind)
        fun anchor _ c => anchor.HandsOn remember c := by
  obtain ⟨-, hancestor, hself, hlazy⟩ := h.axis_spec
  have hown : ¬plan.KeepsOwn := by
    rintro (haxis | ⟨haxis, -⟩)
    · exact hancestor haxis
    · exact hself haxis
  exact (keepsOrigins_stream_of_not_lazily hstore hinput hrelation (fun hboth => hlazy hboth.1)
    h.mayMatch).congr (fun key kind _ => and_iff_left (h.opens kind _)) fun anchor key c =>
      leaves_iff hown

/-- A step that walks answers with the nodes of a join that pass its test: the join of all nodes in
the documents of its input with the input itself. Each node remembers the same context nodes. -/
theorem eval_eq_join (h : plan.Walks) (hplain : plan.predicates = [])
    (hrelation : plan.axis.relation? = some relation) (hstore : store.Nested)
    (hinput : input.nodes.StoredIn store) :
    ∃ found : NodeSet, (plan.fresh.eval input store).outcome = .ok (.nodes found) ∧
      found.nodes.map NodeRef.account =
        (((store.allNodes input.nodes.documents).select input.nodes relation
          plan.remembers).1.sort.nodes.filter (plan.test.matchesKind ·.kind)).map
            NodeRef.account := by
  obtain ⟨feed, houtcome⟩ := Step.outcome_eval_fresh plan input store
  obtain ⟨set, hset⟩ := h.exists_stream_eq store.source input.nodes plan.remembers
  refine ⟨set.sort, ?_, ?_⟩
  · have hsearch := outcome_search_streams h.1 h.mayMatch input.nodes (plan.searched input.nodes) none
      { store with feed }
    rw [houtcome, answer_ok hplain hsearch]
    show Except.ok (plan.stream store.source input.nodes plan.remembers).deduplicate = _
    rw [hset]
    rfl
  · have hstream := h.keepsOrigins_stream hrelation hstore hinput plan.remembers
    rw [hset] at hstream
    have hall := @Store.storedIn_allNodes store input.nodes.documents hstore
    have hjoin := @NodeSet.keepsOrigins_select store relation plan.remembers _ _ hstore hall hinput
      fun _ => Store.context_of_mem_allNodes hstore
    refine hstream.map_account_eq hjoin hstore fun key kind hreaches => ?_
    exact (and_iff_left (hreaches.mem_allNodes hstore)).symm

/-- All attributes of the first document, one of them twice, and its root. -/
def firstAttribute : InputSet :=
  ⟨⟨0⟩, .ofList (twins.named ⟨1⟩ "x" ++ twins.named ⟨1⟩ "r" ++ twins.named ⟨1⟩ "x")⟩

theorem eval_eq_join_firstAttribute :
    let plan : Plan := { axis := .following, test := .anyNode, inPredicate := true }
    ∃ found : NodeSet, (plan.fresh.eval firstAttribute twins).outcome = .ok (.nodes found) ∧
      found.nodes.map NodeRef.account =
        (((twins.allNodes firstAttribute.nodes.documents).select firstAttribute.nodes
          (.beyond .following) true).1.sort.nodes.filter (plan.test.matchesKind ·.kind)).map
            NodeRef.account := by
  intro plan
  have hinput : firstAttribute.nodes.StoredIn twins := by
    refine NodeSet.storedIn_ofList nested_twins fun ref href => ?_
    simp only [List.mem_append] at href
    obtain (href | href) | href := href
    all_goals exact Store.storedIn_named nested_twins href
  have hwalks : plan.Walks := ⟨rfl, by decide⟩
  exact hwalks.eval_eq_join rfl rfl nested_twins hinput

end Walks

end Plan

end TreeAxes
