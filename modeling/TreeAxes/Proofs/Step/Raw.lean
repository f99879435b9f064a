import TreeAxes.Proofs.Step.Found
import TreeAxes.Proofs.Step.Origins

/-!
# What a new step answers

If nobody disturbs it, a new step finds what the store holds, or a scan fails as it was told to.
What it finds is cached as it is, and answers once the predicates have narrowed it. A set of nodes
and each of its nodes alone are evaluated in the same way.
-/

namespace TreeAxes

namespace Plan

variable {plan : Plan} {input : NodeSet} {store : Store}

/-- The feed is not read. -/
theorem found_feed (input : NodeSet) (store : Store) (feed : Feed) :
    (plan.found input fun _ => { store with feed }) = plan.found input fun _ => store :=
  found_congr (fun _ _ => rfl) fun _ _ => rfl

/-- What a search that nobody disturbs leads to. -/
theorem answer_quiet (hquiet : plan.index = .quiet) (haxis : plan.axis ≠ .namespaceAxis)
    (input : NodeSet) (store : Store) (feed : Feed) :
    let outcome := plan.answer (plan.search input (plan.searched input) none { store with feed })
    if store.failNext && plan.scans then outcome = .error (.index .injected)
    else
      ∃ (other : Store) (left : NodeSet), other.documents = store.documents ∧
        outcome =
          plan.applyPredicates other left (plan.found input fun _ => store).deduplicate := by
  intro outcome
  let search := plan.search input (plan.searched input) none { store with feed }
  have hsearch : search.outcome = _ :=
    outcome_search_quiet hquiet haxis input { store with feed }
  rw [found_feed] at hsearch
  split
  · next hfail =>
    rw [if_pos hfail] at hsearch
    show plan.answer search = _
    rw [answer, hsearch]
  · next hready =>
    rw [if_neg hready] at hsearch
    refine ⟨search.store, search.input, (store_search_quiet hquiet).1, ?_⟩
    show plan.answer search = _
    rw [answer, hsearch]

/-- A new step caches what the store holds and narrows it by its predicates, unless a scan is to
fail. -/
theorem exists_raw (hquiet : plan.index = .quiet) (haxis : plan.axis ≠ .namespaceAxis)
    (input : InputSet) (store : Store) :
    let evaluation := plan.fresh.eval input store
    if store.failNext && plan.scans then evaluation.outcome = .error (.index .injected)
    else
      ∃ raw, evaluation.step.cached = some raw ∧
        raw.result = (plan.found input.nodes fun _ => store).deduplicate ∧
          ∃ (other : Store) (left : NodeSet), other.documents = store.documents ∧
            evaluation.outcome = plan.applyPredicates other left raw.result := by
  intro evaluation
  obtain ⟨feed, houtcome, hcached⟩ := exists_cached_of_search plan input store
  have hsearch := outcome_search_quiet hquiet haxis input.nodes { store with feed }
  have hanswer := answer_quiet hquiet haxis input.nodes store feed
  rw [found_feed] at hsearch
  simp only at hanswer hsearch
  split at hanswer
  · next hfail =>
    rw [if_pos hfail]
    exact houtcome.trans hanswer
  · next hready =>
    rw [if_neg hready] at hsearch ⊢
    obtain ⟨raw, hraw, hresult, -⟩ := hcached _ hsearch
    obtain ⟨other, left, hdocuments, hanswer⟩ := hanswer
    refine ⟨raw, hraw, hresult, other, left, hdocuments, ?_⟩
    rw [hresult]
    exact houtcome.trans hanswer

/-- If what a new step finds keeps origins, so does its raw result. -/
theorem raw_keepsOrigins (hquiet : plan.index = .quiet) (haxis : plan.axis ≠ .namespaceAxis)
    (hready : ¬(store.failNext && plan.scans)) (hstore : store.Sound) {input : InputSet}
    {relation : Relation} {asked : DocumentId × Nat → NodeKind → Prop}
    {hands : NodeRef → DocumentId × Nat → ContextNode → Prop}
    (hkeeps : ((plan.found input.nodes fun _ => store).toNodeSet store.source).KeepsOrigins store
      relation input.nodes.nodes asked hands) :
    ∃ raw, (plan.fresh.eval input store).step.cached = some raw ∧
      (raw.result.toNodeSet store.source).StoredIn store ∧
      (∀ key, key ∈ raw.result.keys store ↔
        ∃ kind, asked key kind ∧ store.Reaches relation kind input.nodes.nodes key) ∧
      ∀ node ∈ (raw.result.toNodeSet store.source).nodes, ∀ c, c ∈ node.context ↔
        ∃ anchor ∈ input.nodes.nodes, store.Reaches relation node.kind [anchor] node.key ∧
          hands anchor node.key c := by
  obtain ⟨raw, hcached, hresult, -⟩ := (if_neg hready).mp (exists_raw hquiet haxis input store)
  refine ⟨raw, hcached, ?_, fun key => ?_, fun node hnode c => ?_⟩
  · rw [hresult, StepResult.toNodeSet_deduplicate]
    exact hkeeps.stored.sort
  · rw [StepResult.mem_keys_iff, hresult, StepResult.mem_deduplicate]
    exact hkeeps.mem_iff key
  · rw [hresult, StepResult.toNodeSet_deduplicate] at hnode
    exact hkeeps.mem_context_iff hstore hnode

/-- The evaluation for one node searches as the one for a set with just this node does. -/
theorem outcome_evalItem_fresh (plan : Plan) (node : NodeRef) (store : Store) :
    ∃ feed, (plan.fresh.evalItem node store).1 =
      plan.answer (plan.search (.ofList [node]) (plan.searched (.ofList [node])) none
        { store with feed }) := by
  have hblank : plan.fresh.IsBlank := ⟨rfl, rfl⟩
  obtain ⟨feed, hstore⟩ := plan.fresh.takeIn_store store
  refine ⟨feed, ?_⟩
  rw [Step.evalItem_eq, Step.searchFor, (hblank.takeIn store).2, hstore, Step.takeIn_plan]
  rfl

/-- A new step narrows what the store holds for one node, unless a scan is to fail. -/
theorem outcome_evalItem_quiet (hquiet : plan.index = .quiet)
    (haxis : plan.axis ≠ .namespaceAxis) (node : NodeRef) (store : Store) :
    let outcome := (plan.fresh.evalItem node store).1
    if store.failNext && plan.scans then outcome = .error (.index .injected)
    else
      ∃ (other : Store) (left : NodeSet), other.documents = store.documents ∧
        outcome = plan.applyPredicates other left
          (plan.found (.ofList [node]) fun _ => store).deduplicate := by
  intro outcome
  obtain ⟨feed, houtcome⟩ := plan.outcome_evalItem_fresh node store
  have hanswer := answer_quiet hquiet haxis (.ofList [node]) store feed
  simp only at hanswer
  split at hanswer
  · next hfail =>
    rw [if_pos hfail]
    exact houtcome.trans hanswer
  · next hready =>
    rw [if_neg hready]
    obtain ⟨other, left, hdocuments, hanswer⟩ := hanswer
    exact ⟨other, left, hdocuments, houtcome.trans hanswer⟩

end Plan

end TreeAxes
