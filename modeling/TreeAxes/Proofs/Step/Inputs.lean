import TreeAxes.Proofs.NodeSet.Alike
import TreeAxes.Proofs.NodeSet.Twins
import TreeAxes.Proofs.Step.Found
import TreeAxes.Proofs.Step.Narrowing
import TreeAxes.Proofs.Step.Streaming

/-!
# Inputs that give the same

A step does not tell some inputs apart: what it finds for them is alike, in whatever states the
documents are read. This holds of twins, so between evaluations an input may be sorted or have
contexts recorded. It is what makes the revision of a set enough to decide whether a cached result
answers for it.
-/

namespace TreeAxes

variable {a b : NodeSet} {key : DocumentId × Nat} {source : NodeSource}

/-! ## Streams from twins -/

namespace LazyNodes

variable {axis : Axis} {test : NodeTest} {remember : Bool}

theorem isOutermost_eq (h : a.Twin b) (ha : a.order = .byId) (hb : b.order = .byId)
    {root other : NodeRef} (hbare : root.bare = other.bare) :
    isOutermost a root = isOutermost b other := by
  have hlook (s : NodeSet) (node : NodeRef) : isOutermost s node =
      ((s.part? node.bare.doc.id).map Partition.bare).all
        fun p => (p.nearest node.bare.id false false).isNone := by
    rw [Option.all_map, isOutermost]
    congr 1
    funext p
    rw [p.nearest_bare, Option.isNone_map]
    rfl
  rw [hlook, hlook, hbare, h.part?_bare ha hb]

/-- The roots of an enumeration are the same, but for what they remember. -/
theorem exists_root (ha : a.Uniform) (h : a.Twin b) {root : NodeRef}
    (hroot : root ∈ (ofContext axis test a remember).roots) :
    ∃ other ∈ (ofContext axis test b remember).roots, other.bare = root.bare := by
  have hsorted : a.sort.Twin b.sort :=
    (NodeSet.Twin.sort ha).symm.trans (h.trans (.sort (h.uniform ha)))
  have hsa := (NodeSet.Twin.sort ha).uniform ha
  have hordered : a.sort.sortInDocumentOrder.Twin b.sort.sortInDocumentOrder :=
    (NodeSet.Twin.sortInDocumentOrder hsa).symm.trans
      (hsorted.trans (.sortInDocumentOrder (hsorted.uniform hsa)))
  rw [roots_ofContext] at hroot ⊢
  split at hroot
  · next hspans =>
    obtain ⟨hmem, houtermost⟩ := List.mem_filter.mp hroot
    obtain ⟨other, hother, hbare⟩ := hordered.exists_bare_eq hmem
    refine ⟨other, ?_, hbare⟩
    rw [if_pos hspans, List.mem_filter,
      isOutermost_eq hsorted.symm b.sort_order a.sort_order hbare]
    exact ⟨hother, houtermost⟩
  · next hspans =>
    obtain ⟨other, hother, hbare⟩ := hordered.exists_bare_eq hroot
    exact ⟨other, by rwa [if_neg hspans], hbare⟩

theorem mem_realize_of_twin (ha : a.Uniform) (h : a.Twin b)
    (hkey : key ∈ (ofContext axis test a remember).realize source) :
    key ∈ (ofContext axis test b remember).realize source := by
  rw [mem_realize_iff, NodeSet.mem_ofList] at hkey ⊢
  obtain ⟨ref, href, rfl⟩ := hkey
  obtain ⟨root, hroot, href⟩ := List.mem_flatMap.mp href
  obtain ⟨slot, hslot, rfl⟩ := List.mem_map.mp href
  obtain ⟨other, hother, hbare⟩ := exists_root ha h hroot
  have hreach (v : LazyNodes) (node : NodeRef) : v.reach source node.bare = v.reach source node :=
    rfl
  refine ⟨_, List.mem_flatMap.mpr ⟨other, hother, List.mem_map.mpr ⟨slot, ?_, rfl⟩⟩, ?_⟩
  · have hsame : (ofContext axis test b remember).reach source other =
        (ofContext axis test a remember).reach source root := by
      rw [← hreach, hbare, hreach]
      rfl
    rw [hsame]
    exact hslot
  · rw [makeRef_key, makeRef_key, (NodeRef.bare_eq_iff.mp hbare).1]

end LazyNodes

namespace NodeRef

theorem climbed_bare (node : NodeRef) (level id : Nat) :
    node.bare.climbed level id = node.climbed level id := by
  induction level generalizing id with
  | zero => rfl
  | succ level ih =>
    rw [climbed, climbed]
    simp only [ih, bare_doc]

theorem ancestors_bare (node : NodeRef) : node.bare.ancestors = node.ancestors :=
  node.climbed_bare _ _

theorem map_key_reachedFrom (refs : List NodeRef) (node : NodeRef) (remember : Bool) :
    (refs.map (·.reachedFrom node remember)).map (·.key) = refs.map (·.key) := by
  rw [List.map_map]
  exact List.map_congr_left fun ref _ => ref.reachedFrom_key node remember

end NodeRef

namespace Plan

variable {plan : Plan} {remember : Bool} {seen : DocumentId → Store}

theorem mem_parents_iff_of_twin (h : a.Twin b) :
    key ∈ a.parents remember ↔ key ∈ b.parents remember := by
  rw [NodeSet.parents, NodeSet.parents, List.filterMap_eq_flatMap_toList,
    List.filterMap_eq_flatMap_toList]
  refine h.mem_ofList_flatMap_iff fun node => ?_
  show (if node.parent = noNode then none else some _ : Option NodeRef).toList.map _ = _
  split
  · rfl
  · refine congrArg (fun key => [key]) ?_
    exact (NodeRef.reachedFrom_key _ node.bare _).trans (NodeRef.reachedFrom_key _ node _).symm

theorem mem_streamAncestors_iff_of_twin (h : a.Twin b) {includeSelf : Bool} :
    key ∈ plan.streamAncestors a includeSelf remember ↔
      key ∈ plan.streamAncestors b includeSelf remember := by
  refine h.mem_ofList_flatMap_iff fun node => ?_
  rw [List.map_append, List.map_append, NodeRef.map_key_reachedFrom, NodeRef.map_key_reachedFrom,
    NodeRef.ancestors_bare]
  refine congrArg (· ++ node.ancestors.map (·.key)) ?_
  show List.map _ (if includeSelf && plan.test.matchesKind node.kind then _ else _) = _
  split
  · cases remember with
    | false => rfl
    | true =>
      refine congrArg (fun key => [key]) ?_
      exact (node.bare.pushContext_key _).trans (node.pushContext_key _).symm
  · rfl

theorem mem_streamWalk_iff_of_twin (h : a.Twin b) {walk : NodeRef → List Slot}
    (hwalk : ∀ node : NodeRef, walk node.bare = walk node) :
    key ∈ plan.streamWalk a remember walk ↔ key ∈ plan.streamWalk b remember walk := by
  refine h.mem_ofList_flatMap_iff fun node => ?_
  rw [hwalk, List.map_map, List.map_map]
  exact List.map_congr_left fun slot _ =>
    (NodeRef.reachedFrom_key _ _ _).trans (NodeRef.reachedFrom_key _ _ _).symm

/-- A step without the index finds the same for twins. -/
theorem mem_stream_iff_of_twin {source' : NodeSource} (ha : a.Uniform) (h : a.Twin b) :
    key ∈ (plan.stream source a remember).toNodeSet source' ↔
      key ∈ (plan.stream source b remember).toNodeSet source' := by
  have hlazily : key ∈ (LazyNodes.ofContext plan.axis plan.test a remember).realize source' ↔
      key ∈ (LazyNodes.ofContext plan.axis plan.test b remember).realize source' :=
    ⟨LazyNodes.mem_realize_of_twin ha h, LazyNodes.mem_realize_of_twin (h.uniform ha) h.symm⟩
  rw [stream, stream]
  cases haxis : plan.axis with
  | child | «attribute» | descendant | descendantOrSelf | descendantAttribute =>
    rw [haxis] at hlazily
    exact hlazily
  | self =>
    rw [haxis] at hlazily
    have hmem (s : NodeSet) : key ∈ (if remember then s.setSelfAsContext else s) ↔ key ∈ s := by
      split
      · exact NodeSet.mem_setSelfAsContext
      · exact Iff.rfl
    simp only
    split
    · exact (hmem a).trans (h.mem_key_iff.trans (hmem b).symm)
    · exact hlazily
  | parent => exact mem_parents_iff_of_twin h
  | ancestor | ancestorOrSelf => exact mem_streamAncestors_iff_of_twin h
  | followingSibling | precedingSibling => exact mem_streamWalk_iff_of_twin h fun _ => rfl
  | following | preceding => exact mem_streamWalk_iff_of_twin h fun _ => rfl
  | namespaceAxis => exact Iff.rfl

end Plan

/-! ## Scans for twins -/

namespace Selector

variable {relation : Relation} {remember : Bool}

theorem map_bare_anchors (ha : a.Uniform) (h : a.Twin b) (candidate : NodeRef) :
    ((ofContext relation a remember).anchors candidate).map NodeRef.bare =
      ((ofContext relation b remember).anchors candidate).map NodeRef.bare := by
  have hsorted : a.sort.Twin b.sort :=
    (NodeSet.Twin.sort ha).symm.trans (h.trans (.sort (h.uniform ha)))
  have hlook (s : NodeSet) :
      ((ofContext relation s remember).anchors candidate).map NodeRef.bare =
        ((s.sort.part? candidate.doc.id).map Partition.bare).elim []
          (anchorsIn relation · candidate.id) := by
    rw [anchors_ofContext]
    cases s.sort.part? candidate.doc.id with
    | none => rfl
    | some p => exact (anchorsIn_bare relation p candidate.id).symm
  rw [hlook, hlook, hsorted.part?_bare a.sort_order b.sort_order]

/-- A selector keeps the same candidates for twins; if it remembers, with the same context. -/
theorem select?_of_twin (ha : a.Uniform) (h : a.Twin b) (candidate : NodeRef) :
    ((ofContext relation a remember).select? candidate).map (·.key) =
        ((ofContext relation b remember).select? candidate).map (·.key) ∧
      (remember → (ofContext relation a remember).select? candidate =
        (ofContext relation b remember).select? candidate) := by
  have hbare := @map_bare_anchors a b relation remember ha h candidate
  rw [select?, select?]
  generalize (ofContext relation a remember).anchors candidate = xs at hbare
  generalize (ofContext relation b remember).anchors candidate = ys at hbare
  cases xs with
  | nil =>
    obtain rfl : ys = [] := List.map_eq_nil_iff.mp hbare.symm
    exact ⟨rfl, fun _ => rfl⟩
  | cons x xs =>
    obtain ⟨y, ys, rfl, -, -⟩ := List.map_eq_cons_iff.mp hbare.symm
    cases remember with
    | false => exact ⟨rfl, fun hfalse => absurd hfalse Bool.false_ne_true⟩
    | true =>
      have hforget (nodes : List NodeRef) :
          nodes.map (·.asContext) = (nodes.map NodeRef.bare).map (·.asContext) := by
        rw [List.map_map]
        rfl
      have hcontext : (x :: xs).map (·.asContext) = (y :: ys).map (·.asContext) :=
        (hforget _).trans ((congrArg _ hbare).trans (hforget _).symm)
      have hsame : some (candidate.pushContexts ((x :: xs).map (·.asContext))) =
          some (candidate.pushContexts ((y :: ys).map (·.asContext))) := by rw [hcontext]
      exact ⟨congrArg (Option.map (·.key)) hsame, fun _ => hsame⟩

end Selector

namespace Store

variable {name : QName} {kind : IndexedKind} {relation : Relation} {remember : Bool}

theorem hitsIn_of_twin (ha : a.Uniform) (h : a.Twin b) (store : Store) (doc : DocumentId) :
    (store.hitsIn ⟨kind, name, some (.ofContext relation a remember)⟩ doc).map (·.key) =
        (store.hitsIn ⟨kind, name, some (.ofContext relation b remember)⟩ doc).map (·.key) ∧
      (remember → store.hitsIn ⟨kind, name, some (.ofContext relation a remember)⟩ doc =
        store.hitsIn ⟨kind, name, some (.ofContext relation b remember)⟩ doc) := by
  rw [hitsIn, hitsIn]
  cases store.document? doc with
  | none => exact ⟨rfl, fun _ => rfl⟩
  | some stored =>
    have hselect (node : StoredNode) :=
      @Selector.select?_of_twin a b relation remember ha h (stored.ref node)
    refine ⟨?_, fun hremember => ?_⟩
    · simp only [ScanRequest.hits, List.map_filterMap]
      refine List.filterMap_congr fun node _ => ?_
      simp only [apply_ite (Option.map NodeRef.key), (hselect node).1]
    · simp only [ScanRequest.hits, (hselect _).2 hremember]

end Store

namespace NodeSet

variable {candidates : NodeSet} {relation : Relation}

theorem relatedTo_bare (candidates : NodeSet) (relation : Relation) (node : NodeRef) :
    candidates.relatedTo relation true node.bare = candidates.relatedTo relation true node := by
  cases relation <;> rfl

theorem map_key_relatedTo (candidates : NodeSet) (relation : Relation) (remember : Bool)
    (node : NodeRef) : (candidates.relatedTo relation remember node).map (·.key) =
      (candidates.relatedTo relation true node).map (·.key) := by
  rw [relatedTo, relatedTo]
  split
  · rw [Partition.relatedTo, Partition.relatedTo, NodeRef.map_key_reachedFrom,
      NodeRef.map_key_reachedFrom]
  · rfl

/-- A join of twins with the same candidates recalls the same. -/
theorem recalls_join_of_twin (h : a.Twin b) (candidates : NodeSet) (relation : Relation)
    (key : DocumentId × Nat) (c : ContextNode) :
    (candidates.join a relation true).Recalls key c ↔
      (candidates.join b relation true).Recalls key c := by
  rw [join, join, recalls_ofList, recalls_ofList]
  refine exists_congr fun ref => and_congr_left fun _ => ?_
  have hmem := @Twin.mem_flatMap_iff a b NodeRef NodeRef h (candidates.relatedTo relation true) id
    (fun node => congrArg (List.map id) (candidates.relatedTo_bare relation node)) ref
  rwa [List.map_id, List.map_id] at hmem

/-- Candidates that remember nothing come out of a join with one context node for each node that
they were reached from. -/
theorem recallsOnce_join (h : ∀ candidate ∈ candidates.nodes, candidate.context = [])
    (input : NodeSet) (relation : Relation) :
    (candidates.join input relation true).RecallsOnce := by
  refine recallsOnce_ofList fun ref href => ?_
  obtain ⟨node, -, href⟩ := List.mem_flatMap.mp href
  obtain ⟨candidate, hcandidate, rfl⟩ := exists_of_mem_relatedTo href
  show (candidate.pushContext node.asContext).context.Nodup
  rw [NodeRef.pushContext, h candidate hcandidate]
  exact List.nodup_singleton _

end NodeSet

/-! ## Documents as they were read -/

namespace Store

variable {seen : DocumentId → Store} {doc : DocumentId} {node : NodeRef}

/-- The documents as they were read. -/
def docsAt (seen : DocumentId → Store) (id : DocumentId) : Option Document :=
  ((seen id).document? id).map (·.doc)

theorem docsAt_of_mem_hitsIn {request : ScanRequest}
    (h : node ∈ (seen doc).hitsIn request doc) : docsAt seen node.doc.id = some node.doc := by
  obtain ⟨stored, hstored, candidate, -, -, hadmit⟩ := ScanRequest.exists_of_mem_hitsIn h
  have hdoc : node.doc = stored.doc := (ScanRequest.admit?_same hadmit).1
  have hid : stored.doc.id = doc := by simpa using List.find?_some hstored
  rw [hdoc, docsAt, hid, hstored]
  rfl

end Store

namespace Plan

variable {plan : Plan} {seen : DocumentId → Store} {name : QName} {node : NodeRef}
  {docs : DocumentSet} {selector : Option Selector}

theorem liesIn_scanned : (plan.scanned name selector docs seen).LiesIn (Store.docsAt seen) := by
  refine .ofList fun node hnode => ?_
  obtain ⟨doc, -, hhit⟩ := List.mem_flatMap.mp hnode
  exact Store.docsAt_of_mem_hitsIn hhit

/-- Nodes that are scanned ahead remember nothing. -/
theorem context_of_mem_scanned
    (h : node ∈ (plan.scanned name none docs seen).sort.nodes) : node.context = [] := by
  refine List.eq_nil_iff_forall_not_mem.mpr fun c hc => ?_
  obtain ⟨hit, hhit, -, hc⟩ :=
    NodeSet.recalls_ofList.mp (NodeSet.recalls_sort.mp ⟨node, h, rfl, hc⟩)
  obtain ⟨doc, -, hhit⟩ := List.mem_flatMap.mp hhit
  rw [ScanRequest.context_of_mem_hitsIn hhit] at hc
  cases hc

theorem liesIn_select {relation : Relation} {remember : Bool} :
    ((plan.scanned name none docs seen).select a relation remember).1.LiesIn
      (Store.docsAt seen) := by
  refine .ofList fun ref href => ?_
  obtain ⟨context, -, href⟩ := List.mem_flatMap.mp href
  obtain ⟨candidate, hcandidate, rfl⟩ := NodeSet.exists_of_mem_relatedTo href
  rw [NodeRef.reachedFrom_doc]
  exact liesIn_scanned.sort.of_mem_nodes hcandidate

/-- A step for a name finds references to the documents as they were read. -/
theorem liesIn_found (hname : plan.test.name = some name) (input : NodeSet)
    (source : NodeSource) :
    ((plan.found input seen).deduplicate.toNodeSet source).LiesIn (Store.docsAt seen) := by
  have hempty : (StepResult.empty.deduplicate.toNodeSet source).LiesIn (Store.docsAt seen) :=
    NodeSet.LiesIn.sort nofun
  rw [found, hname]
  split
  · exact hempty
  · split
    · next hnone => cases hnone
    · exact hempty
    · split
      · exact liesIn_scanned.sort
      · exact liesIn_select.sort

/-! ## The same for twins -/

/-- A step finds the same nodes for twins. -/
theorem mem_found_iff_of_twin (ha : a.Uniform) (h : a.Twin b) :
    key ∈ (plan.found a seen).toNodeSet source ↔ key ∈ (plan.found b seen).toNodeSet source := by
  have hsearched : plan.searched a = plan.searched b := by
    rw [searched, searched, h.documents_eq]
  rw [found, found, hsearched]
  split
  · exact Iff.rfl
  · split
    · exact mem_stream_iff_of_twin ha h
    · exact Iff.rfl
    · split
      · show key ∈ NodeSet.ofList _ ↔ key ∈ NodeSet.ofList _
        rw [NodeSet.mem_ofList_iff_map, NodeSet.mem_ofList_iff_map, List.map_flatMap,
          List.map_flatMap]
        refine iff_of_eq (congrArg _ (List.flatMap_congr fun doc _ => ?_))
        exact (Store.hitsIn_of_twin ha h (seen doc) doc).1
      · refine h.mem_ofList_flatMap_iff fun context => ?_
        rw [NodeSet.map_key_relatedTo, NodeSet.map_key_relatedTo _ _ _ context,
          NodeSet.relatedTo_bare]

/-- When contexts count, a step either finds the very same for twins or joins both of them with
candidates that remember nothing. -/
theorem found_twin_cases (ha : a.Uniform) (h : a.Twin b) (hname : plan.test.name = some name)
    (hremembers : plan.remembers) (seen : DocumentId → Store) :
    plan.found a seen = plan.found b seen ∨
      ∃ (candidates : NodeSet) (relation : Relation),
        (∀ node ∈ candidates.nodes, node.context = []) ∧
          plan.found a seen = .nodes (candidates.join a relation true) ∧
            plan.found b seen = .nodes (candidates.join b relation true) := by
  have hsearched : plan.searched a = plan.searched b := by
    rw [searched, searched, h.documents_eq]
  rw [found, found, hsearched, hname, hremembers]
  split
  · exact .inl rfl
  · split
    · next hnone => cases hnone
    · exact .inl rfl
    · next relation _ _ =>
      split
      · refine .inl (congrArg (fun found => StepResult.nodes (.ofList found))
          (List.flatMap_congr fun doc _ => ?_))
        exact (Store.hitsIn_of_twin ha h (seen doc) doc).2 rfl
      · exact .inr ⟨_, relation, fun node hnode => context_of_mem_scanned hnode, rfl, rfl⟩

/-- Inputs for which a step finds the same, in whatever states the documents are read. -/
def SameInput (plan : Plan) (a b : NodeSet) : Prop :=
  ∀ (seen : DocumentId → Store) (source : NodeSource),
    NodeSet.Alike plan.counts (Store.docsAt seen)
      ((plan.found a seen).deduplicate.toNodeSet source)
      ((plan.found b seen).deduplicate.toNodeSet source)

theorem SameInput.trans {c : NodeSet} (h : plan.SameInput a b) (h' : plan.SameInput b c) :
    plan.SameInput a c := fun seen source => (h seen source).trans (h' seen source)

theorem remembers_of_counts (h : plan.counts) : plan.remembers :=
  Bool.or_eq_true_iff.mpr (.inr h)

namespace Regular

variable (hregular : plan.Regular)

include hregular

/-- Only a step for a name counts positions. -/
theorem exists_name (hcounts : plan.counts) : ∃ name, plan.test.name = some name := by
  obtain ⟨p, hp, hneeds⟩ := List.any_eq_true.mp hcounts
  have hp := hregular p hp
  cases p with
  | position n => exact Option.isSome_iff_exists.mp hp
  | filter label test => cases hneeds
  | inInput keepMembers => cases hneeds

theorem liesIn_found (hcounts : plan.counts) (input : NodeSet) (seen : DocumentId → Store)
    (source : NodeSource) :
    ((plan.found input seen).deduplicate.toNodeSet source).LiesIn (Store.docsAt seen) := by
  obtain ⟨name, hname⟩ := hregular.exists_name hcounts
  exact Plan.liesIn_found hname input source

theorem sameInput_of_found_eq (h : ∀ seen, plan.found a seen = plan.found b seen) :
    plan.SameInput a b := by
  intro seen source
  rw [h seen]
  exact .refl (StepResult.nodup_deduplicate _ source) fun hcounts =>
    hregular.liesIn_found hcounts b seen source

theorem sameInput_refl (a : NodeSet) : plan.SameInput a a :=
  hregular.sameInput_of_found_eq fun _ => rfl

/-- A step does not tell twins apart. -/
theorem sameInput_of_twin (ha : a.Uniform) (h : a.Twin b) : plan.SameInput a b := by
  intro seen source
  have hmem (key : DocumentId × Nat) :
      key ∈ (plan.found a seen).deduplicate.toNodeSet source ↔
        key ∈ (plan.found b seen).deduplicate.toNodeSet source := by
    rw [StepResult.mem_deduplicate, StepResult.mem_deduplicate]
    exact mem_found_iff_of_twin ha h
  have hlies (hcounts : plan.counts) (input : NodeSet) :=
    hregular.liesIn_found hcounts input seen source
  by_cases hcounts : plan.counts
  · obtain ⟨name, hname⟩ := hregular.exists_name hcounts
    obtain heq | ⟨candidates, relation, hblank, hfounda, hfoundb⟩ :=
      found_twin_cases ha h hname (remembers_of_counts hcounts) seen
    · rw [heq]
      exact .refl (StepResult.nodup_deduplicate _ source) fun _ => hlies hcounts b
    · refine .of_recalls (StepResult.nodup_deduplicate _ source)
        (StepResult.nodup_deduplicate _ source) hmem (fun _ => ?_)
        fun _ => ⟨hlies hcounts a, hlies hcounts b⟩
      rw [hfounda, hfoundb]
      refine ⟨(NodeSet.recallsOnce_join hblank a relation).sort,
        (NodeSet.recallsOnce_join hblank b relation).sort, fun key c => ?_⟩
      show (candidates.join a relation true).sort.Recalls key c ↔
        (candidates.join b relation true).sort.Recalls key c
      rw [NodeSet.recalls_sort, NodeSet.recalls_sort, NodeSet.recalls_join_of_twin h]
  · exact .of_recalls (StepResult.nodup_deduplicate _ source)
      (StepResult.nodup_deduplicate _ source) hmem (fun hyes => absurd hyes hcounts)
      fun hyes => absurd hyes hcounts

/-- A step that scans with a selector sorts its input; that makes no difference to it. -/
theorem sameInput_sort (hstrategy : plan.strategy = .pushdown) (a : NodeSet) :
    plan.SameInput a a.sort := by
  refine hregular.sameInput_of_found_eq fun seen => ?_
  have hsearched : plan.searched a.sort = plan.searched a := by
    rw [searched, searched, NodeSet.documents_sort]
  have hselector (relation : Relation) :
      Selector.ofContext relation a.sort plan.remembers =
        Selector.ofContext relation a plan.remembers := by
    rw [Selector.ofContext, Selector.ofContext, NodeSet.sort_sort]
  rw [found, found]
  split
  · rfl
  · split
    · next hname =>
      rw [strategy, if_pos (by rw [NodeTest.isWildcard, hname]; rfl)] at hstrategy
      cases hstrategy
    · rfl
    · rw [hsearched, hselector]

end Regular

end Plan

end TreeAxes
