import TreeAxes.Proofs.Step.Agreement
import TreeAxes.Proofs.Step.Groups
import TreeAxes.Proofs.Step.Inheritance

/-!
# Context nodes one by one

What a step finds for a set splits into what it finds for each of its nodes alone. If the step
counts positions, each node that was found remembers the context nodes that find it when they are
alone; so whatever a predicate does with the set, it does with these groups.
-/

namespace TreeAxes

variable {store : Store} {relation : Relation} {key : DocumentId × Nat} {source : NodeSource}

/-- A selector that remembers records each anchor once. -/
theorem NodeSet.recallsOnce_selected {input : NodeSet} {indexed : IndexedKind} {name : QName}
    {docs : DocumentSet} (hstore : store.Sound) (hinput : input.StoredIn store)
    (relation : Relation) :
    (ofList (docs.ids.flatMap (store.hitsIn
      ⟨indexed, name, some (.ofContext relation input true)⟩))).RecallsOnce := by
  refine recallsOnce_ofList fun ref href => ?_
  obtain ⟨doc, -, href⟩ := List.mem_flatMap.mp href
  obtain ⟨d, hfound, node, hnode, -, hselect⟩ := ScanRequest.exists_of_mem_hitsIn href
  have hd := (hstore.document?_eq_some_iff.mp hfound).1
  have hordered := pairwise_anchors hstore hinput hd hnode relation true
  have hnodup : (((Selector.ofContext relation input true).anchors (d.ref node)).map
      (·.asContext)).Nodup :=
    List.pairwise_map.mpr (hordered.imp fun hnearer hsame =>
      hnearer.ne (congrArg ContextNode.id hsame))
  have hselect : (Selector.ofContext relation input true).select? (d.ref node) = some ref := hselect
  rw [Selector.select?] at hselect
  split at hselect
  · cases hselect
  · next first rest hanchors =>
    have hremember : (Selector.ofContext relation input true).remember := rfl
    rw [if_pos hremember] at hselect
    rw [hanchors] at hnodup
    have hfresh : ∀ c ∈ ((first :: rest).map (·.asContext)).head?,
        (d.ref node).context.getLast? ≠ some c := by
      intro c _ hlast
      cases hlast
    rw [← Option.some_inj.mp hselect, NodeRef.context_pushContexts_of_ne hfresh hnodup]
    exact hnodup

namespace Plan

variable {plan : Plan} {name : QName} {input : InputSet} {c : NodeRef} {kind : NodeKind}

/-! ## What a step for a name finds -/

section

variable (hname : plan.ScansFor name) (hrelation : plan.axis.relation? = some relation)
  (hstore : store.Sound) (hinput : input.nodes.StoredIn store)

include hname hrelation hstore hinput

/-- What is found remembers each context node once. -/
theorem ScansFor.recallsOnce_found (hremembers : plan.remembers) (source : NodeSource) :
    ((plan.found input.nodes fun _ => store).toNodeSet source).RecallsOnce := by
  rw [hname.found_eq hrelation, hremembers]
  split
  · exact NodeSet.recallsOnce_selected hstore hinput relation
  · exact NodeSet.recallsOnce_join (fun candidate hcandidate => context_of_mem_scanned hcandidate)
      input.nodes relation

end

/-! ## What it finds for one node -/

/-- The step without its predicates. -/
def whole (plan : Plan) : Plan := { plan with predicates := [] }

/-- What the step, but for its predicates, finds for one node, in document order. -/
def alone (plan : Plan) (store : Store) (c : NodeRef) : List NodeRef :=
  (plan.whole.found (.ofList [c]) fun _ => store).deduplicate.toDocumentOrder store.source

/-- What the step, but for its predicates, finds for each node of a set. -/
def items (plan : Plan) (store : Store) (input : NodeSet) : Groups :=
  input.nodes.map fun c => (c.asContext, plan.alone store c)

theorem storedIn_single (hstore : store.Sound) (hc : c.StoredIn store) :
    (NodeSet.ofList [c]).StoredIn store :=
  NodeSet.storedIn_ofList hstore fun _ hnode => List.mem_singleton.mp hnode ▸ hc

/-- Of what a context node reaches, as much is asked for if it is alone. -/
theorem asks_single_iff (hname : plan.ScansFor name) (hc : c ∈ input.nodes.nodes)
    (hreaches : store.Reaches relation kind [c] key) :
    plan.Asks store (.ofList [c]) key kind ↔ plan.Asks store input.nodes key kind := by
  have hown : key.1 ∈ (NodeSet.ofList [c]).documents.ids :=
    @Store.Reaches.mem_documents store relation kind (.ofList [c]) key hreaches
  have hwhole : key.1 ∈ input.nodes.documents.ids :=
    (Store.reaches_iff_exists.mpr ⟨c, hc, hreaches⟩).mem_documents
  rw [asks_scanned_iff hname, asks_scanned_iff hname, Store.Lists, Store.Lists, searched, searched]
  cases plan.contextDocs with
  | none => exact and_congr_right fun _ => and_congr_left fun _ => iff_of_true hown hwhole
  | some docs => exact .rfl

theorem mem_alone_iff (hname : plan.ScansFor name) (hrelation : plan.axis.relation? = some relation)
    (hstore : store.Sound) (hc : c.StoredIn store) :
    key ∈ (plan.alone store c).map (·.key) ↔
      ∃ kind, plan.Asks store (.ofList [c]) key kind ∧ store.Reaches relation kind [c] key := by
  have hobtains := @ScansFor.obtains_found plan.whole ⟨⟨0⟩, .ofList [c]⟩ store name relation hname
    hrelation hstore (storedIn_single hstore hc) store.source
  have hnodup := StepResult.nodup_deduplicate
    (plan.whole.found (.ofList [c]) fun _ => store) store.source
  have hperm := (NodeSet.perm_toDocumentOrder hnodup).map (·.key)
  rw [alone, StepResult.toDocumentOrder, hperm.mem_iff, NodeSet.mem_map_key_nodes,
    StepResult.mem_deduplicate]
  exact hobtains.gathers.mem_iff key

/-- What a step without predicates finds for one node is listed in document order. -/
theorem pairwise_alone (hname : plan.test.name = some name) (store : Store) (c : NodeRef) :
    (plan.alone store c).Pairwise fun a b =>
      NodeSet.KeyBefore (NodeSet.Within (Store.docsAt fun _ => store)) a.key b.key :=
  (@liesIn_found plan.whole (fun _ => store) name hname (.ofList [c])
    store.source).pairwise_toDocumentOrder

/-! ## What it finds for a set -/

section

variable (hname : plan.ScansFor name) (hrelation : plan.axis.relation? = some relation)
  (hstore : store.Sound) (hinput : input.nodes.StoredIn store)

include hname hrelation hstore hinput

/-- Some node of the input finds, when it is alone, what is found for the input. -/
theorem mem_found_iff_names (source : NodeSource) :
    key ∈ (plan.found input.nodes fun _ => store).toNodeSet source ↔
      (plan.items store input.nodes).Names key := by
  have hobtains := hname.obtains_found hrelation hstore hinput source
  have hsplit : (plan.items store input.nodes).Names key ↔
      ∃ c ∈ input.nodes.nodes, key ∈ (plan.alone store c).map (·.key) := by
    simp only [Groups.Names, items, List.mem_map, exists_exists_and_eq_and]
  rw [hobtains.gathers.mem_iff, hsplit]
  constructor
  · rintro ⟨kind, hasks, hreaches⟩
    obtain ⟨c, hc, hreaches⟩ := Store.reaches_iff_exists.mp hreaches
    refine ⟨c, hc, ?_⟩
    rw [mem_alone_iff hname hrelation hstore (hinput.of_mem_nodes hc)]
    exact ⟨kind, (asks_single_iff hname hc hreaches).mpr hasks, hreaches⟩
  · rintro ⟨c, hc, hmem⟩
    rw [mem_alone_iff hname hrelation hstore (hinput.of_mem_nodes hc)] at hmem
    obtain ⟨kind, hasks, hreaches⟩ := hmem
    exact ⟨kind, (asks_single_iff hname hc hreaches).mp hasks,
      Store.reaches_iff_exists.mpr ⟨c, hc, hreaches⟩⟩

/-- A node that was found remembers the context nodes that find it when they are alone. -/
theorem mem_context_found_iff (hremembers : plan.remembers) {node : NodeRef}
    (hnode : node ∈ ((plan.found input.nodes fun _ => store).toNodeSet source).sort.nodes)
    (hc : c ∈ input.nodes.nodes) :
    c.asContext ∈ node.context ↔ node.key ∈ (plan.alone store c).map (·.key) := by
  have hobtains := hname.obtains_found hrelation hstore hinput source
  have hkeeps := hobtains.keepsOrigins hremembers
  rw [hkeeps.mem_context_iff hstore hnode,
    mem_alone_iff hname hrelation hstore (hinput.of_mem_nodes hc)]
  constructor
  · rintro ⟨anchor, hanchor, hreaches, hsame | ⟨⟨hnameless, -⟩, -⟩⟩
    · -- the anchor may be another copy of the context node
      obtain ⟨hasks, -⟩ := hkeeps.toGathers.of_mem_sort hstore hnode
      have hreaches : store.Reaches relation node.kind [c] node.key := by
        refine hreaches.mono fun context hcontext => ?_
        obtain rfl := List.mem_singleton.mp hcontext
        have hkey : c.key = context.key := Prod.ext (congrArg ContextNode.document hsame)
          (congrArg ContextNode.id hsame)
        exact ⟨c, List.mem_singleton_self c,
          (hinput.of_mem_nodes hc).agree (hinput.of_mem_nodes hanchor) hstore hkey⟩
      exact ⟨node.kind, (asks_single_iff hname hc hreaches).mpr hasks, hreaches⟩
    · rw [hname.1] at hnameless
      cases hnameless
  · rintro ⟨kind, -, hreaches⟩
    obtain rfl := hreaches.kind_eq hstore (hkeeps.stored.sort.of_mem_nodes hnode)
    exact ⟨c, hc, hreaches, .inl rfl⟩

/-- What is found for a set splits into what is found for its nodes. -/
theorem splits_found :
    ((plan.found input.nodes fun _ => store).deduplicate.toNodeSet store.source).Splits
      plan.counts (Store.docsAt fun _ => store) (plan.items store input.nodes) := by
  have hlies := @liesIn_found plan (fun _ => store) name hname.1 input.nodes store.source
  have hnodup := StepResult.nodup_deduplicate (plan.found input.nodes fun _ => store) store.source
  constructor
  case nodup => exact hnodup
  case mem_iff =>
    intro key
    exact StepResult.mem_deduplicate.trans (mem_found_iff_names hname hrelation hstore hinput _)
  case lies => exact fun _ => hlies
  case once =>
    intro hcounts
    rw [StepResult.toNodeSet_deduplicate]
    exact (hname.recallsOnce_found hrelation hstore hinput (remembers_of_counts hcounts) _).sort
  case known =>
    intro hcounts node hnode c hc
    rw [StepResult.toNodeSet_deduplicate] at hnode
    have hkeeps := (hname.obtains_found hrelation hstore hinput store.source).keepsOrigins
      (remembers_of_counts hcounts)
    obtain ⟨anchor, hanchor, -, hsame | ⟨⟨hnameless, -⟩, -⟩⟩ :=
      (hkeeps.mem_context_iff hstore hnode).mp hc
    · exact ⟨_, List.mem_map_of_mem hanchor, hsame.symm⟩
    · rw [hname.1] at hnameless
      cases hnameless
  case keys_eq =>
    intro hcounts group hgroup
    obtain ⟨c, hc, rfl⟩ := List.mem_map.mp hgroup
    have hperm := NodeSet.perm_toDocumentOrder hnodup
    have hcontext {node : NodeRef} (hnode : node ∈ ((plan.found input.nodes fun _ =>
        store).deduplicate.toNodeSet store.source).nodes) :
        c.asContext ∈ node.context ↔ node.key ∈ (plan.alone store c).map (·.key) := by
      rw [StepResult.toNodeSet_deduplicate] at hnode
      exact mem_context_found_iff hname hrelation hstore hinput (remembers_of_counts hcounts)
        hnode hc
    -- both lists are in document order, so it is enough that they have the same members
    refine NodeSet.eq_of_mem_iff (fun _ _ _ hab => hab.asymm)
      (List.pairwise_map.mpr (hlies.pairwise_toDocumentOrder.filter _))
      (List.pairwise_map.mpr (pairwise_alone hname.1 store c)) fun key => ?_
    rw [List.mem_map]
    constructor
    · rintro ⟨node, hnode, rfl⟩
      obtain ⟨hnode, hremembered⟩ := List.mem_filter.mp hnode
      exact (hcontext (hperm.subset hnode)).mp (of_decide_eq_true hremembered)
    · intro hmem
      obtain ⟨x, hx, hkey⟩ := List.mem_map.mp hmem
      have hnames : (plan.items store input.nodes).Names key :=
        ⟨_, List.mem_map_of_mem hc, x, hx, hkey⟩
      have hfound := (mem_found_iff_names hname hrelation hstore hinput store.source).mpr hnames
      obtain ⟨node, hnode, rfl⟩ :=
        NodeSet.mem_iff_exists_node.mp (StepResult.mem_deduplicate.mpr hfound)
      refine ⟨node, List.mem_filter.mpr ⟨hperm.symm.subset hnode, ?_⟩, rfl⟩
      exact decide_eq_true ((hcontext hnode).mpr hmem)

end

/-! ## What it answers -/

/-- A list of what the step, but for its predicates, answers for one node, in document order. -/
def ListsAlone (plan : Plan) (store : Store) (c : NodeRef) (nodes : List NodeRef) : Prop :=
  (∃ result, (plan.whole.fresh.evalItem c store).1 = .ok result ∧
      result.toDocumentOrder store.source = nodes) ∧
    nodes.Pairwise fun a b =>
      NodeSet.KeyBefore (NodeSet.Within (Store.docsAt fun _ => store)) a.key b.key

section

variable (hquiet : plan.index = .quiet) (haxis : plan.axis ≠ .namespaceAxis)
  (hname : plan.ScansFor name)

include hquiet haxis hname

/-- If the next scan is to fail, a step that asks the index says so. -/
theorem eval_failing (hfail : store.failNext) (input : InputSet) :
    (plan.fresh.eval input store).outcome = .error (.index .injected) := by
  have heval := exists_raw hquiet haxis input store
  rwa [hfail, scans_iff.mpr ⟨name, hname⟩, Bool.and_self, if_pos rfl] at heval

theorem evalItem_failing (hfail : store.failNext) (c : NodeRef) :
    (plan.fresh.evalItem c store).1 = .error (.index .injected) := by
  have heval := outcome_evalItem_quiet hquiet haxis c store
  rwa [hfail, scans_iff.mpr ⟨name, hname⟩, Bool.and_self, if_pos rfl] at heval

variable (hready : ¬store.failNext)

include hready

theorem listsAlone_alone (c : NodeRef) : plan.ListsAlone store c (plan.alone store c) := by
  refine ⟨?_, pairwise_alone hname.1 store c⟩
  have heval := @outcome_evalItem_quiet plan.whole hquiet haxis c store
  simp only [eq_false_of_ne_true hready, Bool.false_and, if_neg Bool.false_ne_true] at heval
  obtain ⟨other, left, -, houtcome⟩ := heval
  exact ⟨_, houtcome, rfl⟩

variable (hstore : store.Sound) (hregular : plan.Regular)

include hstore hregular

/-- A new step narrows what it finds for the nodes of its input. -/
theorem eval_merges (hinput : input.nodes.StoredIn store) :
    Concur (StepResult.Merges store) (plan.fresh.eval input store).outcome
      ((plan.items store input.nodes).narrowAll? plan.axis store plan.predicates) := by
  obtain ⟨relation, hrelation⟩ := Axis.exists_relation_iff.mpr haxis
  have heval := exists_raw hquiet haxis input store
  simp only [eq_false_of_ne_true hready, Bool.false_and, if_neg Bool.false_ne_true] at heval
  obtain ⟨raw, -, hresult, other, left, hdocuments, houtcome⟩ := heval
  rw [houtcome, hresult]
  exact applyPredicates_merges hregular hdocuments (splits_found hname hrelation hstore hinput)

/-- For one node, a new step narrows what it finds for it. -/
theorem evalItem_merges (hc : c.StoredIn store) :
    Concur (StepResult.Merges store) (plan.fresh.evalItem c store).1
      (Groups.narrowAll? [(c.asContext, plan.alone store c)] plan.axis store plan.predicates) := by
  obtain ⟨relation, hrelation⟩ := Axis.exists_relation_iff.mpr haxis
  have heval := outcome_evalItem_quiet hquiet haxis c store
  simp only [eq_false_of_ne_true hready, Bool.false_and, if_neg Bool.false_ne_true] at heval
  obtain ⟨other, left, hdocuments, houtcome⟩ := heval
  rw [houtcome]
  exact applyPredicates_merges hregular hdocuments
    (@splits_found _ _ _ _ ⟨⟨0⟩, .ofList [c]⟩ hname hrelation hstore (storedIn_single hstore hc))

end

end Plan

/-! ## Positions -/

theorem Axis.isReverse_eq (axis : Axis) : axis.isReverse =
    decide (axis ∈ [.ancestor, .ancestorOrSelf, .parent, .precedingSibling, .preceding]) := by
  cases axis <;> rfl

/-- What stands at a position is what is left at it. -/
theorem Groups.names_restrict_picks {groups : Groups} {axis : Axis} {n : Nat} :
    (groups.restrict (groups.picks axis n)).Names key ↔
      ∃ group ∈ groups, ∃ x ∈ Position.pick? axis.isReverse n group.2, x.key = key := by
  rw [names_restrict]
  constructor
  · rintro ⟨-, -, node, -, hpicked, rfl⟩
    exact picks_iff.mp hpicked
  · rintro ⟨group, hgroup, x, hx, rfl⟩
    exact ⟨group, hgroup, x, Position.mem_of_mem_pick? hx,
      picks_iff.mpr ⟨group, hgroup, x, hx, rfl⟩, rfl⟩

namespace Plan

variable {plan : Plan} {name : QName} {input : InputSet}

/-- A position counts for each context node on its own, in document order or, on a reverse axis,
against it: found is what stands at it in what the step without the position answers for some node
of the input alone. If a scan is to fail, the step says so. -/
theorem eval_position {n : Nat} (hpredicates : plan.predicates = [.position n])
    (hquiet : plan.index = .quiet) (haxis : plan.axis ≠ .namespaceAxis)
    (hname : plan.LooksFor name) (hstore : store.Sound) (hinput : input.nodes.StoredIn store) :
    let reverse : Bool :=
      plan.axis ∈ [.ancestor, .ancestorOrSelf, .parent, .precedingSibling, .preceding]
    if store.failNext then (plan.fresh.eval input store).outcome = .error (.index .injected)
    else
      ∃ alone : NodeRef → List NodeRef,
        (∀ c ∈ input.nodes.nodes, plan.ListsAlone store c (alone c)) ∧
          plan.Finds input store fun key => ∃ c ∈ input.nodes.nodes,
            ∃ x ∈ Position.pick? reverse n (alone c), x.key = key := by
  intro reverse
  split
  · next hfail => exact eval_failing hquiet haxis hname.scansFor hfail input
  · next hready =>
    refine ⟨plan.alone store, fun c _ => listsAlone_alone hquiet haxis hname.scansFor hready c, ?_⟩
    have hregular : plan.Regular := by
      intro p hp
      rw [hpredicates, List.mem_singleton] at hp
      rw [hp]
      exact Option.isSome_iff_exists.mpr ⟨name, hname.scansFor.1⟩
    have heval := eval_merges hquiet haxis hname.scansFor hready hstore hregular hinput
    rw [hpredicates] at heval
    obtain ⟨result, left, houtcome, hleft, hmerges⟩ := heval.exists_ok nofun
    refine ⟨result, houtcome, hmerges.nodup, fun key => (hmerges.mem_iff key).trans ?_⟩
    rw [← Option.some_inj.mp hleft, Groups.names_restrict_picks, plan.axis.isReverse_eq]
    simp only [items, List.mem_map, exists_exists_and_eq_and]
    rfl

/-- The second leaf below each node. -/
def secondLeafBelow : Plan := { leavesBelow with predicates := [.position 2] }

theorem eval_position_stayed :
    ∃ alone : NodeRef → List NodeRef,
      (∀ c ∈ stayed.nodes.nodes, secondLeafBelow.ListsAlone nest c (alone c)) ∧
        secondLeafBelow.Finds stayed nest fun key => ∃ c ∈ stayed.nodes.nodes,
          ∃ x ∈ Position.pick? false 2 (alone c), x.key = key := by
  have hposition := @eval_position nest secondLeafBelow (.ofLocal "x") stayed 2 rfl rfl nofun rfl
    sound_nest storedIn_stayed
  have hready : ¬nest.failNext := by decide
  exact (if_neg hready).mp hposition

end Plan

end TreeAxes
