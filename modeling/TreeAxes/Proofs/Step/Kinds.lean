import TreeAxes.Proofs.Step.Agreement
import TreeAxes.Proofs.Step.Coherence

/-!
# Kinds of results

Which kinds of nodes a step can find follows from its test and its axis alone, for any store and
any input, and whatever the step did before. Without a name, they pass the test. With a name, the
index decides: it lists attributes or elements, though the test may be for something else.
-/

namespace TreeAxes

variable {P : NodeKind → Prop}

/-! ## Sets of nodes of some kinds -/

namespace NodeSet

/-- All nodes of the set are of certain kinds. -/
def OfKinds (s : NodeSet) (P : NodeKind → Prop) : Prop := ∀ node ∈ s.nodes, P node.kind

variable {s : NodeSet} {nodes : List NodeRef}

theorem ofKinds_empty : empty.OfKinds P := nofun

theorem ofKinds_ofList (h : ∀ node ∈ nodes, P node.kind) : (ofList nodes).OfKinds P :=
  forall_mem_nodes_ofList (fun _ _ ha _ => ha) h

theorem OfKinds.sort (h : s.OfKinds P) : s.sort.OfKinds P := by
  intro node hnode
  obtain ⟨copy, hcopy, -, -, hkind⟩ := exists_same_of_mem_nodes_sort hnode
  rw [hkind]
  exact h copy hcopy

theorem OfKinds.toDocumentOrder (h : s.OfKinds P) : ∀ node ∈ s.toDocumentOrder, P node.kind :=
  fun node hnode => h.sort node (s.perm_nodes_sortInDocumentOrder.mem_iff.mp hnode)

/-- A join finds candidates. -/
theorem OfKinds.select (h : s.OfKinds P) (context : NodeSet) (relation : Relation)
    (remember : Bool) : (s.select context relation remember).1.OfKinds P := by
  apply ofKinds_ofList
  intro ref href
  obtain ⟨anchor, -, href⟩ := List.mem_flatMap.mp href
  obtain ⟨candidate, hcandidate, rfl⟩ := exists_of_mem_relatedTo href
  rw [NodeRef.reachedFrom_kind]
  exact h.sort candidate hcandidate

end NodeSet

namespace Index

/-- A scan finds nodes of the kind that it is for, whatever happens meanwhile. -/
theorem ofKinds_scan {index : Index} {request : ScanRequest} {docs : DocumentSet}
    {store after : Store} {nodes : NodeSet}
    (h : index.scan request docs store = (.ok nodes, after)) :
    nodes.OfKinds (· = request.kind.nodeKind) := by
  have hread (docs : List DocumentId) (store : Store) :
      ∀ ref ∈ (index.read request docs store).1, ref.kind = request.kind.nodeKind := by
    induction docs generalizing store with
    | nil => exact nofun
    | cons doc docs ih =>
      intro ref href
      obtain href | href := List.mem_append.mp href
      · obtain ⟨d, -, node, -, hkind, hadmit⟩ := ScanRequest.exists_of_mem_hitsIn href
        exact (ScanRequest.admit?_same hadmit).2.2.trans hkind
      · exact ih _ ref href
  rw [scan] at h
  split at h
  · cases h
  · cases h
    exact NodeSet.ofKinds_ofList (hread _ _)

end Index

/-- However a result is realised, its nodes are of certain kinds. -/
def StepResult.OfKinds (result : StepResult) (P : NodeKind → Prop) : Prop :=
  ∀ source, (result.toNodeSet source).OfKinds P

theorem StepResult.OfKinds.deduplicate {result : StepResult} (h : result.OfKinds P) :
    result.deduplicate.OfKinds P := by
  intro source
  cases result with
  | nodes set => exact (h source).sort
  | lazily v => exact h source

/-! ## Searches -/

namespace Plan

/-- The kinds of nodes that the step can find: those that pass its test, or the kind of the nodes
that the index lists for a name. -/
def Yields (plan : Plan) (kind : NodeKind) : Prop :=
  if plan.test.name = none then plan.test.matchesKind kind = true
  else kind = plan.indexedKind.nodeKind

/-- The test lets pass what the index lists, if it is asked. -/
def Fits (plan : Plan) : Prop :=
  plan.test.name = none ∨ plan.test.matchesKind plan.indexedKind.nodeKind

variable {plan : Plan} {kind : NodeKind}

theorem Yields.matchesKind_iff (h : plan.Yields kind) : plan.test.matchesKind kind ↔ plan.Fits := by
  rw [Yields] at h
  split at h
  · next hname => exact iff_of_true h (.inl hname)
  · next hname =>
    rw [h]
    exact (or_iff_right hname).symm

theorem ofKinds_streamAncestors (hmay : plan.test.mayMatchElement) (input : NodeSet)
    (includeSelf remember : Bool) :
    (plan.streamAncestors input includeSelf remember).OfKinds (plan.test.matchesKind ·) := by
  rw [streamAncestors_eq]
  apply NodeSet.ofKinds_ofList
  intro ref href
  obtain ⟨node, -, href⟩ := List.mem_flatMap.mp href
  rw [ancestorRefs, List.mem_append] at href
  obtain hself | hancestor := href
  · split at hself
    · next hboth =>
      rw [List.mem_singleton.mp hself, NodeRef.asSelf_kind]
      exact (Bool.and_eq_true_iff.mp hboth).2
    · cases hself
  · obtain ⟨ancestor, hclimbed, rfl⟩ := List.mem_map.mp hancestor
    rw [NodeRef.reachedFrom_kind, NodeRef.kind_of_mem_ancestors hclimbed]
    exact NodeTest.matchesKind_element hmay

theorem ofKinds_parents (hmay : plan.test.mayMatchElement) (input : NodeSet) (remember : Bool) :
    (input.parents remember).OfKinds (plan.test.matchesKind ·) := by
  apply NodeSet.ofKinds_ofList
  intro ref href
  obtain ⟨node, -, hparent⟩ := List.mem_filterMap.mp href
  split at hparent
  · cases hparent
  · rw [← Option.some_inj.mp hparent, NodeRef.reachedFrom_kind]
    exact NodeTest.matchesKind_element hmay

theorem ofKinds_streamWalk (input : NodeSet) (remember : Bool) (walk : NodeRef → List Slot) :
    (plan.streamWalk input remember walk).OfKinds (plan.test.matchesKind ·) := by
  apply NodeSet.ofKinds_ofList
  intro ref href
  obtain ⟨node, -, href⟩ := List.mem_flatMap.mp href
  obtain ⟨slot, hslot, rfl⟩ := List.mem_map.mp href
  rw [NodeRef.reachedFrom_kind]
  exact (List.mem_filter.mp hslot).2

/-- Streaming lets pass what the test lets pass. -/
theorem ofKinds_stream (hmay : plan.axis.elementsOnly → plan.test.mayMatchElement)
    (source : NodeSource) (input : NodeSet) (remember : Bool) :
    (plan.stream source input remember).OfKinds (plan.test.matchesKind ·) := by
  intro other
  have hlazy : ((LazyNodes.ofContext plan.axis plan.test input remember).realize other).OfKinds
      (plan.test.matchesKind ·) := by
    refine (NodeSet.ofKinds_ofList fun ref href => ?_).sort
    obtain ⟨root, -, href⟩ := List.mem_flatMap.mp href
    obtain ⟨slot, hslot, rfl⟩ := List.mem_map.mp href
    rw [LazyNodes.makeRef_kind]
    exact (List.mem_filter.mp hslot).2
  rw [stream]
  cases haxis : plan.axis with
  | child | «attribute» | descendant | descendantOrSelf | descendantAttribute =>
    rw [haxis] at hlazy
    exact hlazy
  | self =>
    rw [haxis] at hlazy
    by_cases hkind : plan.test.kind = .node
    · intro node _
      rw [NodeTest.matchesKind, hkind]
    · simp only [if_neg hkind]
      exact hlazy
  | parent =>
    rw [haxis] at hmay
    exact ofKinds_parents (hmay rfl) input remember
  | ancestor | ancestorOrSelf =>
    rw [haxis] at hmay
    exact ofKinds_streamAncestors (hmay rfl) input _ remember
  | followingSibling | precedingSibling | following | preceding =>
    exact ofKinds_streamWalk input remember _
  | namespaceAxis => exact NodeSet.ofKinds_empty

theorem ofKinds_scanned (name : QName) (selector : Option Selector) (docs : DocumentSet)
    (seen : DocumentId → Store) :
    (plan.scanned name selector docs seen).OfKinds (· = plan.indexedKind.nodeKind) := by
  apply NodeSet.ofKinds_ofList
  intro ref href
  obtain ⟨doc, -, href⟩ := List.mem_flatMap.mp href
  obtain ⟨d, -, node, -, hkind, hadmit⟩ := ScanRequest.exists_of_mem_hitsIn href
  exact (ScanRequest.admit?_same hadmit).2.2.trans hkind

/-- What the index lists for a name is what the step can find. -/
theorem ofKinds_listed {set : NodeSet} (hname : plan.test.name ≠ none)
    (h : set.OfKinds (· = plan.indexedKind.nodeKind)) :
    (StepResult.nodes set).OfKinds plan.Yields := by
  intro source node hnode
  rw [Yields, if_neg hname]
  exact h node hnode

theorem ofKinds_found (input : NodeSet) (seen : DocumentId → Store) :
    (plan.found input seen).OfKinds plan.Yields := by
  rw [found]
  split
  · exact fun source => NodeSet.ofKinds_empty
  · next hexcludes =>
    split
    · next hname =>
      intro source node hnode
      rw [Yields, if_pos hname]
      refine ofKinds_stream ?_ _ _ _ source node hnode
      by_contra hmay
      exact hexcludes (excludes_iff.mpr hmay)
    · exact fun source => NodeSet.ofKinds_empty
    · next name relation hname hrelation =>
      have hsome : plan.test.name ≠ none := hname ▸ Option.some_ne_none name
      have hscanned (selector : Option Selector) :=
        @ofKinds_scanned plan name selector (plan.searched input) seen
      split
      · exact ofKinds_listed hsome (hscanned _)
      · exact ofKinds_listed hsome ((hscanned none).select _ _ _)

/-- Nodes at hand are of the kind that the index lists. -/
def Lists (plan : Plan) (preloaded : Option Preloaded) : Prop :=
  ∀ ready ∈ preloaded, ready.nodes.OfKinds (· = plan.indexedKind.nodeKind)

/-- A search finds nodes of the right kinds, also with the help of nodes at hand, and the nodes that
it leaves at hand are right as well. -/
theorem ofKinds_search {input : NodeSet} {preloaded : Option Preloaded} {store : Store}
    (hready : plan.Lists preloaded) :
    (∀ result, (plan.search input (plan.searched input) preloaded store).outcome = .ok result →
      result.OfKinds plan.Yields) ∧
        plan.Lists (plan.search input (plan.searched input) preloaded store).preloaded := by
  have hgoes := plan.goes_search input preloaded store
  generalize plan.search input (plan.searched input) preloaded store = search at hgoes ⊢
  cases hgoes with
  | unscanned result hfound =>
    refine ⟨?_, hready⟩
    rintro _ ⟨⟩
    rw [hfound]
    exact ofKinds_found _ _
  | unsupported =>
    refine ⟨?_, hready⟩
    rintro _ ⟨⟩
  | pushed name selector nodes after hstrategy hscan hfound =>
    refine ⟨?_, hready⟩
    rintro _ ⟨⟩
    refine ofKinds_listed (fun hname => ?_) (Index.ofKinds_scan hscan)
    rw [strategy, NodeTest.isWildcard, hname] at hstrategy
    cases hstrategy
  | atHand name relation ready hname hsome =>
    have hlisted : (ready.nodes.OfKinds (· = plan.indexedKind.nodeKind)) := hready ready hsome
    refine ⟨?_, ?_⟩
    · rintro _ ⟨⟩
      refine ofKinds_listed ?_ (hlisted.select _ _ _)
      rw [hname]
      exact Option.some_ne_none name
    · rintro _ ⟨⟩
      exact hlisted.sort
  | joined name relation nodes after hname hscan =>
    have hlisted := Index.ofKinds_scan hscan
    refine ⟨?_, ?_⟩
    · rintro _ ⟨⟩
      refine ofKinds_listed ?_ (hlisted.select _ _ _)
      rw [hname]
      exact Option.some_ne_none name
    · rintro _ ⟨⟩
      exact hlisted.sort
  | failed request fault after left kept hscan hleft hkept =>
    refine ⟨?_, fun ready hkeeps => hready ready (hkept ready hkeeps)⟩
    rintro _ ⟨⟩

end Plan

/-! ## Predicates -/

/-- A predicate makes no nodes up. -/
theorem Predicate.ofKinds_narrow {p : Predicate} {store : Store} {input : Option NodeSet}
    {candidates narrowed : NodeSet} {axis : Axis} (h : candidates.OfKinds P)
    (hok : p.narrow store input candidates axis = .ok narrowed) : narrowed.OfKinds P := by
  cases p with
  | position n =>
    cases hok
    apply NodeSet.ofKinds_ofList
    intro node hnode
    exact h.toDocumentOrder node ((Position.select_sublist axis n _).subset hnode)
  | filter label test =>
    obtain ⟨kept, hkept, rfl⟩ := exists_of_narrow_filter hok
    apply NodeSet.ofKinds_ofList
    intro node hnode
    exact h.sort node ((passing_sublist hkept).subset hnode)
  | inInput keepMembers =>
    cases input with
    | none =>
      cases hok
      exact h
    | some input =>
      cases hok
      apply NodeSet.ofKinds_ofList
      intro node hnode
      exact h node (List.mem_filter.mp hnode).1

namespace Plan

variable {plan : Plan}

theorem ofKinds_narrowAll {axis : Axis} {store : Store} {input : NodeSet}
    {predicates : List Predicate} {candidates narrowed : NodeSet} (h : candidates.OfKinds P)
    (hok : narrowAll axis store input predicates candidates = .ok narrowed) :
    narrowed.OfKinds P := by
  induction predicates generalizing candidates with
  | nil =>
    cases hok
    exact h
  | cons p ps ih =>
    obtain ⟨between, hnarrow, hrest⟩ := exists_of_narrowAll_cons hok
    exact ih (Predicate.ofKinds_narrow h hnarrow) hrest

theorem ofKinds_applyPredicates {store : Store} {input : NodeSet} {raw result : StepResult}
    (h : raw.OfKinds P) (hok : plan.applyPredicates store input raw = .ok result) :
    result.OfKinds P := by
  obtain ⟨-, rfl⟩ | ⟨narrowed, -, hnarrow, rfl⟩ := applyPredicates_cases hok
  · exact h
  · exact fun source => ofKinds_narrowAll (h store.source) hnarrow

theorem ofKinds_answer {found : Search} {result : StepResult}
    (h : ∀ raw, found.outcome = .ok raw → raw.OfKinds P) (hok : plan.answer found = .ok result) :
    result.OfKinds P := by
  rw [answer] at hok
  split at hok
  · cases hok
  · next raw hraw => exact ofKinds_applyPredicates (h raw hraw).deduplicate hok

end Plan

/-! ## Steps and sessions -/

namespace Step

variable {step : Step} {store : Store} {result : StepResult}

/-- What a step keeps between evaluations is of the kinds that it can find. -/
structure KeepsKinds (step : Step) : Prop where
  cached : ∀ entry ∈ step.cached, entry.result.OfKinds step.plan.Yields
  listed : step.plan.Lists step.preloaded

namespace KeepsKinds

theorem of_blank (hcached : step.cached = none) (hpreloaded : step.preloaded = none) :
    step.KeepsKinds := by
  constructor
  · intro entry hentry
    rw [hcached] at hentry
    cases hentry
  · intro ready hready
    rw [hpreloaded] at hready
    cases hready

theorem withIndex (h : step.KeepsKinds) (index : Index) : (step.withIndex index).KeepsKinds :=
  ⟨h.cached, h.listed⟩

theorem applyEvent (h : step.KeepsKinds) (event : ChangeEvent) :
    (step.applyEvent event).KeepsKinds := by
  rw [Step.applyEvent]
  split
  · exact of_blank rfl rfl
  · constructor
    · intro entry hentry
      exact h.cached entry (Option.filter_eq_some_iff.mp hentry).1
    · intro ready hready
      exact h.listed ready (Option.filter_eq_some_iff.mp hready).1

theorem foldl_applyEvent (h : step.KeepsKinds) (events : List ChangeEvent) :
    (events.foldl Step.applyEvent step).KeepsKinds := by
  induction events generalizing step with
  | nil => exact h
  | cons event events ih => exact ih (h.applyEvent event)

theorem drain (h : step.KeepsKinds) (store : Store) : (step.drain store).1.KeepsKinds := by
  rw [Step.drain]
  split
  · exact h
  · exact h.foldl_applyEvent _

theorem takeIn (h : step.KeepsKinds) (store : Store) : (step.takeIn store).1.KeepsKinds := by
  have hsubscribe : (step.subscribe store).1.KeepsKinds := by
    rw [subscribe]
    split
    · exact h
    · exact ⟨h.cached, h.listed⟩
  exact hsubscribe.drain _

/-- A response has nodes of the right kinds, and so has what the step keeps of it. -/
theorem respond (h : step.KeepsKinds) (input : InputSet) (store : Store) :
    (step.respond input store).step.KeepsKinds ∧
      ∀ result, (step.respond input store).outcome = .ok result →
        result.OfKinds step.plan.Yields := by
  obtain ⟨hfound, hlisted⟩ := @Plan.ofKinds_search step.plan input.nodes step.preloaded store h.listed
  rw [Step.respond]
  cases hentry : step.entryFor? input with
  | some entry =>
    refine ⟨h, fun result hok => ?_⟩
    have hcached := (Option.filter_eq_some_iff.mp hentry).1
    exact Plan.ofKinds_applyPredicates (h.cached entry hcached) hok
  | none =>
    refine ⟨⟨fun entry hentry => ?_, hlisted⟩, fun result hok => Plan.ofKinds_answer hfound hok⟩
    simp only [searchFor] at hentry
    cases hsearch : (step.plan.search input.nodes (step.plan.searched input.nodes) step.preloaded
        store).outcome with
    | error fault =>
      rw [hsearch] at hentry
      exact h.cached entry hentry
    | ok raw =>
      rw [hsearch] at hentry
      rw [← Option.some_inj.mp hentry]
      exact (hfound raw hsearch).deduplicate

theorem eval (h : step.KeepsKinds) (input : InputSet) (store : Store) :
    (step.eval input store).step.KeepsKinds ∧
      ∀ result, (step.eval input store).outcome = .ok result →
        result.OfKinds step.plan.Yields := by
  have hrespond := (h.takeIn store).respond input (step.takeIn store).2
  rw [takeIn_plan] at hrespond
  rw [eval_eq_respond]
  exact hrespond

theorem evalItem (h : step.KeepsKinds) (node : NodeRef) (store : Store) :
    (step.evalItem node store).2.1.KeepsKinds ∧
      ∀ result, (step.evalItem node store).1 = .ok result → result.OfKinds step.plan.Yields := by
  have htaken := h.takeIn store
  obtain ⟨hfound, hlisted⟩ := @Plan.ofKinds_search (step.takeIn store).1.plan (.ofList [node])
    (step.takeIn store).1.preloaded (step.takeIn store).2 htaken.listed
  rw [evalItem_eq]
  refine ⟨⟨htaken.cached, hlisted⟩, fun result hok => ?_⟩
  have hresult := Plan.ofKinds_answer hfound hok
  rwa [takeIn_plan] at hresult

end KeepsKinds

end Step

namespace Session

variable {plan : Plan} {s : Session}

/-- Every action keeps the kinds, also if it is not permitted. -/
theorem keepsKinds_perform (h : s.step.KeepsKinds) (action : Action) :
    (s.perform action).step.KeepsKinds := by
  cases action with
  | change | failNextScan | create | operate => exact h
  | eval place index =>
    rw [perform]
    split
    · exact h
    · exact ((h.withIndex index).eval _ _).1
  | evalItem node index => exact ((h.withIndex index).evalItem node s.store).1
  | hasCached | hasPreloaded => exact h.drain s.store
  | reset => exact .of_blank rfl rfl

theorem Reachable.keepsKinds (h : s.Reachable plan) :
    s.step.KeepsKinds ∧ ∃ index, s.step.plan = plan.withIndex index := by
  induction h with
  | start => exact ⟨.of_blank rfl rfl, plan.index, rfl⟩
  | perform _ action _ ih =>
    obtain ⟨hkinds, index, hplan⟩ := ih
    exact ⟨keepsKinds_perform hkinds action, plan_perform hplan action⟩

/-- Whatever happened in a session, and for any input, the nodes that a step answers with pass the
kind of its test if and only if the index is for that kind, or the step does not ask it. -/
theorem Reachable.results_fit (h : s.Reachable plan) (index : Index) {result : StepResult}
    (hanswer : (∃ input, ((s.step.withIndex index).eval input s.store).outcome = .ok result) ∨
      ∃ node, ((s.step.withIndex index).evalItem node s.store).1 = .ok result)
    (source : NodeSource) :
    ∀ node ∈ (result.toNodeSet source).nodes, plan.Yields node.kind ∧
      (plan.test.matchesKind node.kind ↔ plan.Fits) := by
  obtain ⟨hkinds, own, hplan⟩ := h.keepsKinds
  have hyields : result.OfKinds (s.step.withIndex index).plan.Yields := by
    obtain ⟨input, hok⟩ | ⟨node, hok⟩ := hanswer
    · exact ((hkinds.withIndex index).eval input s.store).2 result hok
    · exact ((hkinds.withIndex index).evalItem node s.store).2 result hok
  have hsame : (s.step.withIndex index).plan = plan.withIndex index :=
    congrArg (·.withIndex index) hplan
  rw [hsame] at hyields
  intro node hnode
  have hnode : plan.Yields node.kind := hyields source node hnode
  exact ⟨hnode, hnode.matchesKind_iff⟩

theorem results_fit_settled : ∃ result,
    (settled.Reachable firstBelow ∧
      ((settled.step.withIndex .quiet).eval ⟨⟨0⟩, root⟩ settled.store).outcome = .ok result) ∧
    ∀ source, ∀ node ∈ (result.toNodeSet source).nodes, firstBelow.Yields node.kind ∧
      (firstBelow.test.matchesKind node.kind ↔ firstBelow.Fits) := by
  obtain ⟨result, hok⟩ : ∃ result,
      ((settled.step.withIndex .quiet).eval ⟨⟨0⟩, root⟩ settled.store).outcome = .ok result :=
    Step.outcome_eval_ok nofun (by decide +kernel) fun _ _ _ => ⟨_, rfl⟩
  exact ⟨result, ⟨reachable_settled, hok⟩, fun source =>
    reachable_settled.results_fit .quiet (.inl ⟨_, hok⟩) source⟩

/-- The step for text nodes of a name. The test can be made, though texts have no names. -/
def namedText : Plan := { axis := .child, test := { kind := .text, name := some (.ofLocal "a") } }

/-- It finds an element. -/
theorem namedText_finds_element :
    Plan.firstRoot.nodes.StoredIn Plan.twins ∧ ∃ result,
      (namedText.fresh.eval Plan.firstRoot Plan.twins).outcome = .ok result ∧
        ∃ node ∈ (result.toNodeSet Plan.twins.source).nodes,
          ¬namedText.test.matchesKind node.kind := by
  have hscans : namedText.ScansFor (.ofLocal "a") := ⟨rfl, fun honly => nomatch honly⟩
  have hfinds := @Plan.eval_gathers namedText Plan.firstRoot Plan.twins .child ⟨rfl, rfl⟩ rfl
    Plan.nested_twins Plan.storedIn_firstRoot
  rw [if_neg (by decide)] at hfinds
  obtain ⟨result, hok, -, hmem⟩ := hfinds
  have hkey : (⟨1⟩, 3) ∈ result.keys Plan.twins := by
    refine (hmem _).mpr ⟨.element, (Plan.asks_scanned_iff hscans).mpr ⟨rfl, ?_, ?_⟩, ?_⟩
    all_goals decide +kernel
  obtain ⟨node, hnode, -⟩ := List.mem_map.mp hkey
  have hblank : namedText.fresh.KeepsKinds := .of_blank rfl rfl
  have hkind : node.kind = .element := (hblank.eval _ _).2 result hok _ node hnode
  refine ⟨Plan.storedIn_firstRoot, result, hok, node, hnode, ?_⟩
  rw [hkind]
  decide

end Session

end TreeAxes
