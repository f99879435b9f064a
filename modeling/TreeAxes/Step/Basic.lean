import TreeAxes.Step.Predicate
import TreeAxes.Step.Result

/-!
# Steps

A step goes over an axis from the nodes of its input to the nodes that pass its test and
its predicates. Its plan is fixed; what it has cached or scanned ahead is its state. A step
listens to the changes of the store from its first evaluation on.
-/

namespace TreeAxes

namespace Axis

/-- Where the nodes of an axis stand, seen from a context node. -/
def relation? : Axis → Option Relation
  | .child | .attribute => some .child
  | .descendant | .descendantAttribute => some (.descendant false)
  | .descendantOrSelf => some (.descendant true)
  | .parent => some .parent
  | .ancestor => some (.ancestor false)
  | .ancestorOrSelf => some (.ancestor true)
  | .self => some .self
  | .followingSibling => some (.sibling .following)
  | .precedingSibling => some (.sibling .preceding)
  | .following => some (.beyond .following)
  | .preceding => some (.beyond .preceding)
  | .namespaceAxis => none

/-- Axes whose nodes an index scan can select by looking back to the context nodes. -/
def hasSelector : Axis → Bool
  | .child | .attribute | .descendant | .descendantOrSelf | .descendantAttribute | .ancestor
  | .ancestorOrSelf | .parent | .self => true
  | _ => false

/-- Axes that lead to elements only. -/
def elementsOnly : Axis → Bool
  | .self | .parent | .ancestor | .ancestorOrSelf => true
  | _ => false

end Axis

/-- How a step finds its candidates. -/
inductive Strategy where
  /-- Without the index, from the node source. -/
  | streaming
  /-- From all nodes of the name, scanned once and joined with every input. -/
  | preload
  /-- From a scan that filters by a selector. -/
  | pushdown
deriving DecidableEq, Repr

namespace Strategy

def name : Strategy → String
  | streaming => "streaming"
  | preload => "preload"
  | pushdown => "pushdown"

end Strategy

/-- What a step is asked to do. -/
structure Plan where
  axis : Axis
  test : NodeTest
  predicates : List Predicate := []
  /-- The step runs inside a predicate: results remember the node they were reached from. -/
  inPredicate : Bool := false
  /-- The step runs inside an update: nothing is scanned ahead on request. -/
  inUpdate : Bool := false
  /-- The step is evaluated repeatedly against small inputs. -/
  preload : Bool := false
  /-- Documents to search in place of those of the input. -/
  contextDocs : Option DocumentSet := none
  index : Index := .quiet

namespace Plan

def strategy (plan : Plan) : Strategy :=
  if plan.test.isWildcard then .streaming
  else if (plan.preload && !plan.inUpdate) || !plan.axis.hasSelector then .preload
  else .pushdown

/-- Whether results remember the nodes they were reached from. -/
def remembers (plan : Plan) : Bool :=
  plan.inPredicate || plan.predicates.any Predicate.needsContext

def indexedKind (plan : Plan) : IndexedKind :=
  if plan.axis.isAttributeAxis || plan.test.kind = .attribute then .attribute else .element

/-- The documents that are searched for an input. -/
def searched (plan : Plan) (input : NodeSet) : DocumentSet :=
  plan.contextDocs.getD input.documents

/-- The step as it is written in a path. -/
def pathText (plan : Plan) : String := plan.axis.name ++ "::" ++ plan.test.pathText

end Plan

/-- All nodes of a name in some documents, scanned ahead. -/
structure Preloaded where
  docs : DocumentSet
  nodes : NodeSet

structure Step where
  plan : Plan
  preloaded : Option Preloaded := none
  cached : Option CacheEntry := none
  listener : Option ListenerId := none

namespace Step

/-- A new step; the namespace axis is not supported. -/
def ofPlan (plan : Plan) : Except StepError Step :=
  if plan.axis = .namespaceAxis then .error (.unsupportedAxis plan.axis) else .ok { plan }

/-- Forgets what was cached or scanned ahead. -/
def reset (step : Step) : Step := { step with preloaded := none, cached := none }

def isSubscribed (step : Step) : Bool := step.listener.isSome

/-- Registers the step with the feed of the store, once. -/
def subscribe (step : Step) (store : Store) : Step × Store :=
  match step.listener with
  | some _ => (step, store)
  | none =>
    let (id, feed) := store.feed.subscribe .stay
    ({ step with listener := some id }, { store with feed })

/-- Forgets what a change can affect: everything if a document was added, otherwise what
depends on the document. -/
def applyEvent (step : Step) (event : ChangeEvent) : Step :=
  match event.kind with
  | .added => step.reset
  | .other =>
    { step with
      preloaded := step.preloaded.filter fun p => !p.docs.contains event.document
      cached := step.cached.filter fun c => !c.touches event.document }

/-- Takes in the changes announced since the last time. -/
def drain (step : Step) (store : Store) : Step × Store :=
  match step.listener with
  | none => (step, store)
  | some id =>
    let (events, feed) := store.feed.drain id
    (events.foldl applyEvent step, { store with feed })

/-- Whether a result is cached, after taking in changes. -/
def hasCached (step : Step) (store : Store) : Bool × Step × Store :=
  let (step, store) := step.drain store
  (step.cached.isSome, step, store)

/-- Whether nodes are scanned ahead, after taking in changes. -/
def hasPreloaded (step : Step) (store : Store) : Bool × Step × Store :=
  let (step, store) := step.drain store
  (step.preloaded.isSome, step, store)

/-- Ends the step: it no longer listens. -/
def close (step : Step) (store : Store) : Store :=
  match step.listener with
  | none => store
  | some id => { store with feed := store.feed.unsubscribe id }

/-- The text of the collaborators a step works with. -/
def describeServices : String := "StepServices \x7b .. \x7d"

def describe (step : Step) : String :=
  let predicates := ", ".intercalate (step.plan.predicates.map Predicate.describe)
  s!"LocationStep \x7b axis: {step.plan.axis.describe}, test: {step.plan.test.describe}, " ++
    s!"predicates: [{predicates}], in_predicate: {step.plan.inPredicate}, " ++
    s!"in_update: {step.plan.inUpdate}, preload: {step.plan.preload}, " ++
    s!"cached: {step.cached.isSome}, preloaded: {step.preloaded.isSome}, .. \x7d"

end Step

end TreeAxes
