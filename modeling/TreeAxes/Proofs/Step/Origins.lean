import TreeAxes.Proofs.Step.Searches

/-!
# Where results come from

If a step remembers, each node of its raw result remembers the context nodes that it was reached
from, whatever the strategy. Two wildcard steps remember more: where a node is found as itself on
the axis of its ancestors, or as any node on the axis of itself, what it remembered before is kept.
-/

namespace TreeAxes

namespace StepResult

theorem toNodeSet_deduplicate (result : StepResult) (source : NodeSource) :
    result.deduplicate.toNodeSet source = (result.toNodeSet source).sort := by
  cases result with
  | nodes set => rfl
  | lazily v => exact (NodeSet.sort_sort _).symm

end StepResult

namespace Plan

variable {plan : Plan} {input : InputSet} {store : Store} {relation : Relation}

/-- A new step answers from a raw result, to which it applies its predicates and which it caches. -/
theorem exists_cached_of_search (plan : Plan) (input : InputSet) (store : Store) :
    ∃ feed,
      let evaluation := plan.fresh.eval input store
      let found := plan.search input.nodes (plan.searched input.nodes) none { store with feed }
      evaluation.outcome = plan.answer found ∧ ∀ result, found.outcome = .ok result →
        ∃ raw, evaluation.step.cached = some raw ∧ raw.result = result.deduplicate ∧
          evaluation.outcome =
            plan.applyPredicates evaluation.store evaluation.input.nodes raw.result := by
  obtain ⟨feed, taken, rfl, hblank, heval⟩ := Step.eval_fresh plan input store
  refine ⟨feed, ?_⟩
  rw [heval, hblank.respond_eq]
  refine ⟨rfl, fun result hresult => ?_⟩
  simp only [answer, hresult]
  exact ⟨_, rfl, rfl, rfl⟩

/-- If a new step remembers, each node of its raw result remembers the context nodes that it was
reached from, and nothing else, unless it is a context node that was found as it came: that one
also keeps what it remembered. Only an injected failure of a scan prevents a result. -/
theorem eval_remembers (hquiet : plan.index = .quiet)
    (hrelation : plan.axis.relation? = some relation) (hremembers : plan.remembers)
    (hstore : store.Nested) (hinput : input.nodes.StoredIn store) :
    let evaluation := plan.fresh.eval input store
    if store.failNext && plan.scans then evaluation.outcome = .error (.index .injected)
    else
      ∃ raw, evaluation.step.cached = some raw ∧
        evaluation.outcome =
          plan.applyPredicates evaluation.store evaluation.input.nodes raw.result ∧
        ∀ node ∈ (raw.result.toNodeSet store.source).nodes, ∀ c, c ∈ node.context ↔
          ∃ anchor ∈ input.nodes.nodes, store.Reaches relation node.kind [anchor] node.key ∧
            plan.Remembers anchor node.key c := by
  intro evaluation
  obtain ⟨feed, houtcome, hcached⟩ := exists_cached_of_search plan input store
  have hsearch := @search_obtains plan input { store with feed } relation hquiet hrelation
    (hstore.congr rfl (Nat.le_refl _)) hinput
  simp only at hsearch
  split at hsearch
  · next hfail =>
    rw [if_pos hfail]
    rw [answer, hsearch] at houtcome
    exact houtcome
  · next hready =>
    rw [if_neg hready]
    obtain ⟨result, hresult, hobtains⟩ := hsearch
    obtain ⟨raw, hraw, heq, hpredicates⟩ := hcached result hresult
    refine ⟨raw, hraw, hpredicates, fun node hnode c => ?_⟩
    rw [heq, StepResult.toNodeSet_deduplicate] at hnode
    exact (hobtains.keepsOrigins hremembers).mem_context_iff
      (hstore.sound.congr rfl (Nat.le_refl _)) hnode

/-- A document of a root with two children. -/
def pair : Store :=
  .applyAll .empty
    [.add "one" (.node (.element "r") [] [.leaf (.element "a"), .leaf (.element "b")])]

/-- The children as a step from the root finds them: they remember the root. -/
def fromRoot : InputSet :=
  ⟨⟨0⟩, .ofList ((pair.named ⟨1⟩ "a" ++ pair.named ⟨1⟩ "b").map (·.pushContext ⟨⟨1⟩, 1⟩))⟩

/-- The step inside a predicate that stays where it is. -/
def stay : Plan := { axis := .self, test := .anyNode, inPredicate := true }

theorem nested_pair : pair.Nested := by
  refine Store.nested_empty.applyAll fun change hchange => ?_
  rw [List.mem_singleton.mp hchange]
  refine .node (.inl rfl) fun child hchild => ?_
  obtain rfl | rfl := List.mem_pair.mp hchild
  · exact .node (.inl rfl) nofun
  · exact .node (.inl rfl) nofun

theorem storedIn_fromRoot : fromRoot.nodes.StoredIn pair := by
  refine NodeSet.storedIn_ofList nested_pair fun ref href => ?_
  obtain ⟨node, hnode, rfl⟩ := List.mem_map.mp href
  obtain hnode | hnode := List.mem_append.mp hnode
  · exact (Store.storedIn_named nested_pair hnode).pushContext _
  · exact (Store.storedIn_named nested_pair hnode).pushContext _

theorem eval_remembers_fromRoot :
    let evaluation := stay.fresh.eval fromRoot pair
    ∃ raw, evaluation.step.cached = some raw ∧
      evaluation.outcome =
        stay.applyPredicates evaluation.store evaluation.input.nodes raw.result ∧
      ∀ node ∈ (raw.result.toNodeSet pair.source).nodes, ∀ c, c ∈ node.context ↔
        ∃ anchor ∈ fromRoot.nodes.nodes, pair.Reaches .self node.kind [anchor] node.key ∧
          stay.Remembers anchor node.key c :=
  @eval_remembers stay fromRoot pair .self rfl rfl rfl nested_pair storedIn_fromRoot

/-- The children keep the root among their contexts, though it is not a context node. -/
theorem eval_remembers_root :
    pair.Nested ∧ fromRoot.nodes.StoredIn pair ∧ stay.remembers ∧
      ∃ raw, (stay.fresh.eval fromRoot pair).step.cached = some raw ∧
        ∃ node ∈ (raw.result.toNodeSet pair.source).nodes, ∃ c ∈ node.context,
          ∀ anchor ∈ fromRoot.nodes.nodes, c ≠ anchor.asContext := by
  obtain ⟨feed, -, hcached⟩ := exists_cached_of_search stay fromRoot pair
  obtain ⟨raw, hraw, hresult, -⟩ :=
    hcached (.nodes fromRoot.nodes.setSelfAsContext)
      (outcome_search_streams rfl (fun _ => rfl) _ _ _ _)
  have hrecalls : fromRoot.nodes.setSelfAsContext.sort.Recalls (⟨1⟩, 2) ⟨⟨1⟩, 1⟩ := by
    rw [NodeSet.recalls_sort]
    show ∃ node ∈ fromRoot.nodes.setSelfAsContext.nodes,
      node.key = (⟨1⟩, 2) ∧ (⟨⟨1⟩, 1⟩ : ContextNode) ∈ node.context
    decide +kernel
  obtain ⟨node, hnode, -, hc⟩ := hrecalls
  refine ⟨nested_pair, storedIn_fromRoot, rfl, raw, hraw, node, ?_, _, hc, by decide +kernel⟩
  rw [hresult]
  exact hnode

end Plan

end TreeAxes
