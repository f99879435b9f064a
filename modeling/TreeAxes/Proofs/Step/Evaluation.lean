import TreeAxes.Step.Evaluate
import TreeAxes.Proofs.NodeSet.FiniteSet

/-!
# How evaluations answer

An evaluation takes in what was announced and then responds: from the cache, or by a search in
the store as it is. A step that was never evaluated has nothing to forget, so it always searches.
What predicates leave of an answer was left by each of them in turn.
-/

namespace TreeAxes

/-- A step that was never evaluated. -/
def Plan.fresh (plan : Plan) : Step := { plan }

theorem Plan.ofPlan_eq_fresh {plan : Plan} (h : plan.axis ≠ .namespaceAxis) :
    Step.ofPlan plan = .ok plan.fresh := if_neg h

/-- What a search finds, once each and narrowed by the predicates. -/
def Plan.answer (plan : Plan) (found : Search) : Except StepError StepResult :=
  match found.outcome with
  | .error fault => .error fault
  | .ok result => plan.applyPredicates found.store found.input result.deduplicate

theorem Plan.applyPredicates_of_plain {plan : Plan} (hplain : plan.predicates = [])
    (store : Store) (input : NodeSet) (result : StepResult) :
    plan.applyPredicates store input result = .ok result := by
  rw [applyPredicates, hplain]
  rfl

theorem Plan.answer_ok {plan : Plan} (hplain : plan.predicates = []) {found : Search}
    {result : StepResult} (h : found.outcome = .ok result) :
    plan.answer found = .ok result.deduplicate := by
  rw [answer, h]
  exact applyPredicates_of_plain hplain _ _ _

/-- The test excludes what the axis leads to. -/
theorem Plan.excludes_iff {plan : Plan} :
    (plan.axis.elementsOnly && !plan.test.mayMatchElement) ↔
      ¬(plan.axis.elementsOnly → plan.test.mayMatchElement) := by
  rw [Bool.and_eq_true_iff, Bool.not_eq_true', Classical.not_imp, Bool.not_eq_true]

/-! ## What predicates leave -/

namespace Predicate

variable {test : NodeRef → Except StepError Bool} {node : NodeRef} {nodes kept : List NodeRef}

theorem passing_cons (test : NodeRef → Except StepError Bool) (node : NodeRef)
    (nodes : List NodeRef) :
    passing test (node :: nodes) = match test node with
      | .error fault => .error fault
      | .ok true => (passing test nodes).map (node :: ·)
      | .ok false => passing test nodes := by
  rw [passing]
  cases test node with
  | error fault => rfl
  | ok passes =>
    cases passes with
    | false => rfl
    | true => cases passing test nodes <;> rfl

/-- A filter asks one node after the other. -/
theorem exists_of_passing_cons (h : passing test (node :: nodes) = .ok kept) :
    ∃ passes rest, test node = .ok passes ∧ passing test nodes = .ok rest ∧
      kept = if passes then node :: rest else rest := by
  rw [passing_cons] at h
  split at h
  · cases h
  · next hpasses =>
    cases hrest : passing test nodes with
    | error fault =>
      rw [hrest] at h
      cases h
    | ok rest =>
      rw [hrest] at h
      cases h
      exact ⟨true, rest, hpasses, rfl, rfl⟩
  · next hpasses => exact ⟨false, kept, hpasses, h, rfl⟩

theorem passing_sublist (h : passing test nodes = .ok kept) : kept.Sublist nodes := by
  induction nodes generalizing kept with
  | nil =>
    cases h
    exact .slnil
  | cons node nodes ih =>
    obtain ⟨passes, rest, -, hrest, rfl⟩ := exists_of_passing_cons h
    cases passes with
    | false => exact (ih hrest).cons node
    | true => exact (ih hrest).cons_cons node

theorem exists_of_narrow_filter {label : String} {test : Store → NodeRef → Except StepError Bool}
    {store : Store} {input : Option NodeSet} {candidates narrowed : NodeSet} {axis : Axis}
    (h : (filter label test).narrow store input candidates axis = .ok narrowed) :
    ∃ kept, passing (test store) candidates.sort.nodes = .ok kept ∧ narrowed = .ofList kept := by
  rw [narrow] at h
  cases hpassing : passing (test store) candidates.sort.nodes with
  | error fault =>
    rw [hpassing] at h
    cases h
  | ok kept =>
    rw [hpassing] at h
    cases h
    exact ⟨kept, rfl, rfl⟩

end Predicate

namespace Plan

variable {plan : Plan} {store : Store} {input : NodeSet}

theorem exists_of_narrowAll_cons {axis : Axis} {p : Predicate} {ps : List Predicate}
    {candidates narrowed : NodeSet}
    (h : narrowAll axis store input (p :: ps) candidates = .ok narrowed) :
    ∃ between, p.narrow store (some input) candidates axis = .ok between ∧
      narrowAll axis store input ps between = .ok narrowed := by
  rw [narrowAll] at h
  cases hnarrow : p.narrow store (some input) candidates axis with
  | error fault =>
    rw [hnarrow] at h
    cases h
  | ok between =>
    rw [hnarrow] at h
    exact ⟨between, rfl, h⟩

/-- Without predicates a result stays as it is; otherwise its nodes are narrowed. -/
theorem applyPredicates_cases {raw result : StepResult}
    (h : plan.applyPredicates store input raw = .ok result) :
    plan.predicates = [] ∧ result = raw ∨
      ∃ set, plan.predicates ≠ [] ∧
        narrowAll plan.axis store input plan.predicates (raw.toNodeSet store.source) = .ok set ∧
          result = .nodes set := by
  rw [applyPredicates] at h
  split at h
  · next hplain =>
    cases h
    exact .inl ⟨List.isEmpty_iff.mp hplain, rfl⟩
  · next hsome =>
    cases hnarrow : narrowAll plan.axis store input plan.predicates
        (raw.toNodeSet store.source) with
    | error fault =>
      rw [hnarrow] at h
      cases h
    | ok set =>
      rw [hnarrow] at h
      cases h
      exact .inr ⟨set, fun hplain => hsome (List.isEmpty_iff.mpr hplain), rfl, rfl⟩

end Plan

/-! ## Results -/

namespace StepResult

/-- What a result names, as its nodes are enumerated from a store. -/
def keys (result : StepResult) (store : Store) : List (DocumentId × Nat) :=
  (result.toNodeSet store.source).nodes.map (·.key)

variable {source : NodeSource} {key : DocumentId × Nat}

theorem mem_keys_iff {result : StepResult} {store : Store} :
    key ∈ result.keys store ↔ key ∈ result.toNodeSet store.source := NodeSet.mem_map_key_nodes

theorem nodup_deduplicate (result : StepResult) (source : NodeSource) :
    ((result.deduplicate.toNodeSet source).nodes.map (·.key)).Nodup := by
  have hsort (s : NodeSet) : (s.sort.nodes.map (·.key)).Nodup :=
    NodeSet.nodup_keys (fun _ _ => Nat.ne_of_lt)
      (NodeSet.pairwise_nodes_of_order_byId s.sort_order)
  cases result with
  | nodes set => exact hsort set
  | lazily v => exact hsort _

theorem mem_deduplicate {result : StepResult} :
    key ∈ result.deduplicate.toNodeSet source ↔ key ∈ result.toNodeSet source := by
  cases result with
  | nodes set => exact NodeSet.mem_sort
  | lazily v => exact Iff.rfl

end StepResult

namespace Step

variable {step : Step}

/-- The step and the store after registering, if need be, and taking in what was announced. -/
def takeIn (step : Step) (store : Store) : Step × Store :=
  (step.subscribe store).1.drain (step.subscribe store).2

/-- The search of a step for the nodes of an input. -/
def searchFor (step : Step) (input : NodeSet) (store : Store) : Search :=
  step.plan.search input (step.plan.searched input) step.preloaded store

/-- The entry that answers for an input. -/
def entryFor? (step : Step) (input : InputSet) : Option CacheEntry :=
  step.cached.filter (·.isValid input)

/-- What an evaluation does after taking in what was announced. -/
def respond (step : Step) (input : InputSet) (store : Store) : Evaluation :=
  match step.entryFor? input with
  | some entry =>
    { outcome := step.plan.applyPredicates store input.nodes entry.result, step, input, store }
  | none =>
    let found := step.searchFor input.nodes store
    let left : InputSet := { input with nodes := found.input }
    { outcome := step.plan.answer found
      step :=
        { step with
          preloaded := found.preloaded
          cached := match found.outcome with
            | .error _ => step.cached
            | .ok result =>
              some (.ofResult left result.deduplicate (step.plan.searched input.nodes)) }
      input := left
      store := found.store }

theorem eval_eq_respond (step : Step) (input : InputSet) (store : Store) :
    step.eval input store = (step.takeIn store).1.respond input (step.takeIn store).2 := by
  obtain ⟨taken, left, htaken⟩ : ∃ taken left, step.takeIn store = (taken, left) := ⟨_, _, rfl⟩
  rw [htaken]
  rw [takeIn] at htaken
  simp only [eval, htaken, respond, entryFor?, searchFor, Plan.answer]
  cases taken.cached.filter (·.isValid input) with
  | some entry => rfl
  | none =>
    cases (taken.plan.search input.nodes (taken.plan.searched input.nodes) taken.preloaded
      left).outcome with
    | error fault => rfl
    | ok result => rfl

theorem evalItem_eq (step : Step) (node : NodeRef) (store : Store) :
    step.evalItem node store =
      let found := (step.takeIn store).1.searchFor (.ofList [node]) (step.takeIn store).2
      ((step.takeIn store).1.plan.answer found,
        { (step.takeIn store).1 with preloaded := found.preloaded }, found.store) := rfl

/-! ## Taking in -/

theorem subscribe_plan (step : Step) (store : Store) :
    (step.subscribe store).1.plan = step.plan := by
  rw [subscribe]
  split <;> rfl

theorem applyEvent_plan (step : Step) (event : ChangeEvent) :
    (step.applyEvent event).plan = step.plan := by
  rw [applyEvent]
  split <;> rfl

theorem foldl_applyEvent_plan (step : Step) (events : List ChangeEvent) :
    (events.foldl applyEvent step).plan = step.plan := by
  induction events generalizing step with
  | nil => rfl
  | cons event events ih => exact (ih _).trans (step.applyEvent_plan event)

theorem drain_plan (step : Step) (store : Store) : (step.drain store).1.plan = step.plan := by
  rw [drain]
  split
  · rfl
  · exact foldl_applyEvent_plan _ _

theorem takeIn_plan (step : Step) (store : Store) : (step.takeIn store).1.plan = step.plan :=
  (drain_plan _ _).trans (subscribe_plan _ _)

theorem eval_plan (step : Step) (input : InputSet) (store : Store) :
    (step.eval input store).step.plan = step.plan := by
  rw [eval_eq_respond, respond]
  split
  · exact step.takeIn_plan store
  · exact step.takeIn_plan store

theorem subscribe_store (step : Step) (store : Store) :
    ∃ feed, (step.subscribe store).2 = { store with feed } := by
  rw [subscribe]
  split
  · exact ⟨store.feed, rfl⟩
  · exact ⟨_, rfl⟩

theorem drain_store (step : Step) (store : Store) :
    ∃ feed, (step.drain store).2 = { store with feed } := by
  rw [drain]
  split
  · exact ⟨store.feed, rfl⟩
  · exact ⟨_, rfl⟩

/-- Taking in changes nothing in the store but its feed. -/
theorem takeIn_store (step : Step) (store : Store) :
    ∃ feed, (step.takeIn store).2 = { store with feed } := by
  obtain ⟨feed, hsubscribe⟩ := step.subscribe_store store
  obtain ⟨feed', hdrain⟩ := (step.subscribe store).1.drain_store (step.subscribe store).2
  exact ⟨feed', by rw [takeIn, hdrain, hsubscribe]⟩

/-! ## New steps -/

/-- A step with nothing cached or scanned ahead. -/
def IsBlank (step : Step) : Prop := step.cached = none ∧ step.preloaded = none

namespace IsBlank

theorem applyEvent (h : step.IsBlank) (event : ChangeEvent) : (step.applyEvent event).IsBlank := by
  rw [Step.applyEvent]
  split
  · exact ⟨rfl, rfl⟩
  · exact ⟨by rw [h.1]; rfl, by rw [h.2]; rfl⟩

theorem foldl_applyEvent (h : step.IsBlank) (events : List ChangeEvent) :
    (events.foldl Step.applyEvent step).IsBlank := by
  induction events generalizing step with
  | nil => exact h
  | cons event events ih => exact ih (h.applyEvent event)

theorem takeIn (h : step.IsBlank) (store : Store) : (step.takeIn store).1.IsBlank := by
  have hsubscribe : (step.subscribe store).1.IsBlank := by
    rw [subscribe]
    split <;> exact h
  rw [Step.takeIn, drain]
  split
  · exact hsubscribe
  · exact hsubscribe.foldl_applyEvent _

end IsBlank

/-- With nothing at hand, a step searches and caches what it finds. -/
theorem IsBlank.respond_eq (h : step.IsBlank) (input : InputSet) (store : Store) :
    step.respond input store =
      let found :=
        step.plan.search input.nodes (step.plan.searched input.nodes) none store
      let left : InputSet := { input with nodes := found.input }
      { outcome := step.plan.answer found
        step :=
          { step with
            preloaded := found.preloaded
            cached := match found.outcome with
              | .error _ => none
              | .ok result =>
                some (.ofResult left result.deduplicate (step.plan.searched input.nodes)) }
        input := left
        store := found.store } := by
  obtain ⟨hcached, hpreloaded⟩ := h
  rw [respond, entryFor?, hcached, searchFor, hpreloaded]
  rfl

/-- A new step responds by a search in the store. -/
theorem eval_fresh (plan : Plan) (input : InputSet) (store : Store) :
    ∃ (feed : Feed) (taken : Step), taken.plan = plan ∧ taken.IsBlank ∧
      plan.fresh.eval input store = taken.respond input { store with feed } := by
  have hblank : plan.fresh.IsBlank := ⟨rfl, rfl⟩
  obtain ⟨feed, hstore⟩ := plan.fresh.takeIn_store store
  refine ⟨feed, (plan.fresh.takeIn store).1, takeIn_plan _ _, hblank.takeIn store, ?_⟩
  rw [eval_eq_respond, hstore]

theorem outcome_eval_fresh (plan : Plan) (input : InputSet) (store : Store) :
    ∃ feed, (plan.fresh.eval input store).outcome =
      plan.answer
        (plan.search input.nodes (plan.searched input.nodes) none { store with feed }) := by
  obtain ⟨feed, taken, rfl, hblank, heval⟩ := eval_fresh plan input store
  exact ⟨feed, by rw [heval, hblank.respond_eq]⟩

end Step

end TreeAxes
