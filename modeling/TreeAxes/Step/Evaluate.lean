import TreeAxes.Step.Stream

/-!
# Evaluation of steps

An evaluation first takes in the changes announced so far. It answers from the cache while
the input is the same unchanged set; otherwise it finds the candidates by the strategy of
the plan and caches them. Predicates are applied to candidates every time and are not part
of what is cached.
-/

namespace TreeAxes

/-- What finding the candidates of a step leaves behind: the input, which may have been
sorted, the nodes scanned ahead and the store. -/
structure Search where
  outcome : Except StepError StepResult
  input : NodeSet
  preloaded : Option Preloaded
  store : Store

namespace Plan

/-- Finds candidates by a scan that filters with a selector over the sorted input. -/
def pushdown (plan : Plan) (name : QName) (relation : Relation) (input : NodeSet)
    (searched : DocumentSet) (preloaded : Option Preloaded) (store : Store) : Search :=
  let selector := Selector.ofContext relation input plan.remembers
  let (found, store) :=
    plan.index.scan ⟨plan.indexedKind, name, some selector⟩ searched store
  { outcome := (found.map .nodes).mapError .index
    input := selector.context
    preloaded, store }

/-- Finds candidates by joining the input with all nodes of the name. They are scanned
unless those at hand are of the same documents; a scan that fails leaves none at hand. -/
def joinPreloaded (plan : Plan) (name : QName) (relation : Relation) (input : NodeSet)
    (searched : DocumentSet) (preloaded : Option Preloaded) (store : Store) : Search :=
  let join (ready : Preloaded) (store : Store) : Search :=
    let (found, nodes) := ready.nodes.select input relation plan.remembers
    { outcome := .ok (.nodes found), input, preloaded := some { ready with nodes }, store }
  match preloaded.filter (·.docs.sameIds searched) with
  | some ready => join ready store
  | none =>
    match plan.index.scan ⟨plan.indexedKind, name, none⟩ searched store with
    | (.ok nodes, store) => join ⟨searched, nodes⟩ store
    | (.error fault, store) =>
      { outcome := .error (.index fault), input, preloaded := none, store }

/-- Finds the candidates of a step. An axis that leads to elements only has none for a
test that no element passes. -/
def search (plan : Plan) (input : NodeSet) (searched : DocumentSet)
    (preloaded : Option Preloaded) (store : Store) : Search :=
  let without (outcome : Except StepError StepResult) : Search :=
    { outcome, input, preloaded, store }
  if plan.axis.elementsOnly && !plan.test.mayMatchElement then without (.ok .empty)
  else
    match plan.test.name, plan.axis.relation? with
    | none, _ => without (.ok (plan.stream store.source input plan.remembers))
    | some _, none => without (.error (.unsupportedAxis plan.axis))
    | some name, some relation =>
      if plan.strategy = .pushdown then
        plan.pushdown name relation input searched preloaded store
      else plan.joinPreloaded name relation input searched preloaded store

/-- Narrows a result by predicates, one after the other. -/
def narrowAll (axis : Axis) (store : Store) (input : NodeSet) :
    List Predicate → NodeSet → Except StepError NodeSet
  | [], set => .ok set
  | p :: ps, set => do
    narrowAll axis store input ps (← p.narrow store (some input) set axis)

/-- Narrows a result by the predicates of the plan; without any, it stays as it is. -/
def applyPredicates (plan : Plan) (store : Store) (input : NodeSet) (result : StepResult) :
    Except StepError StepResult :=
  if plan.predicates.isEmpty then .ok result
  else
    (narrowAll plan.axis store input plan.predicates (result.toNodeSet store.source)).map .nodes

end Plan

/-- The outcome of an evaluation and what it leaves behind. -/
structure Evaluation where
  outcome : Except StepError StepResult
  step : Step
  input : InputSet
  store : Store

namespace Step

/-- Evaluates the step for an input set. -/
def eval (step : Step) (input : InputSet) (store : Store) : Evaluation :=
  let (step, store) := step.subscribe store
  let (step, store) := step.drain store
  match step.cached.filter (·.isValid input) with
  | some entry =>
    { outcome := step.plan.applyPredicates store input.nodes entry.result, step, input, store }
  | none =>
    let searched := step.plan.searched input.nodes
    let found := step.plan.search input.nodes searched step.preloaded store
    let input : InputSet := { input with nodes := found.input }
    let step : Step := { step with preloaded := found.preloaded }
    match found.outcome with
    | .error fault => { outcome := .error fault, step, input, store := found.store }
    | .ok result =>
      let result := result.deduplicate
      { outcome := step.plan.applyPredicates found.store input.nodes result
        step := { step with cached := some (.ofResult input result searched) }
        input
        store := found.store }

/-- Evaluates the step for one node. Nothing is cached. -/
def evalItem (step : Step) (node : NodeRef) (store : Store) :
    Except StepError StepResult × Step × Store :=
  let (step, store) := step.subscribe store
  let (step, store) := step.drain store
  let input := NodeSet.ofList [node]
  let found := step.plan.search input (step.plan.searched input) step.preloaded store
  let step : Step := { step with preloaded := found.preloaded }
  let outcome := match found.outcome with
    | .error fault => .error fault
    | .ok result => step.plan.applyPredicates found.store found.input result.deduplicate
  (outcome, step, found.store)

end Step

end TreeAxes
