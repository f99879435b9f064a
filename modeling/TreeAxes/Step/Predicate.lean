import TreeAxes.Step.Position
import TreeAxes.Store.Scan

/-!
# Predicates

A predicate narrows what a step has found. A position counts the nodes that were reached
from one context node; a filter asks one node at a time and may fail. What it asks is up to the
caller, as is a predicate that looks at the whole input of the step: `inInput` and the filters
at the end stand for such predicates of callers, and no rule of a step refers to one of them.
-/

namespace TreeAxes

inductive StepError where
  | unsupportedAxis (axis : Axis)
  | index (fault : IndexError)
  | predicate (message : String)
deriving DecidableEq, Repr

namespace StepError

def message : StepError → String
  | unsupportedAxis axis => s!"unsupported axis: {axis.name}"
  | index fault => fault.message
  | predicate message => s!"predicate evaluation failed: {message}"

end StepError

inductive Predicate where
  /-- The node at a position, counted from one, among those of each context node. -/
  | position (n : Nat)
  /-- The nodes that pass a test. -/
  | filter (label : String) (test : Store → NodeRef → Except StepError Bool)
  /-- A predicate of a caller: the nodes that are in the input of the step, or those that are
  not. -/
  | inInput (keepMembers : Bool)

namespace Predicate

/-- Whether nodes must know the context nodes they were reached from. -/
def needsContext : Predicate → Bool
  | position _ => true
  | filter _ _ | inInput _ => false

/-- The nodes that pass a test, or the first failure. -/
def passing (test : NodeRef → Except StepError Bool) :
    List NodeRef → Except StepError (List NodeRef)
  | [] => .ok []
  | node :: nodes => do
    if ← test node then return node :: (← passing test nodes)
    else passing test nodes

/-- Narrows candidates that a step has found. The input of the step may be unknown. -/
def narrow (p : Predicate) (store : Store) (input : Option NodeSet) (candidates : NodeSet)
    (axis : Axis) : Except StepError NodeSet :=
  match p with
  | position n => .ok (.ofList (Position.select axis n candidates.toDocumentOrder))
  | filter _ test => (passing (test store) candidates.sort.nodes).map .ofList
  | inInput keepMembers =>
    match input with
    | none => .ok candidates
    | some input =>
      let members := input.sort
      .ok (.ofList (candidates.nodes.filter fun node =>
        (members.lookup? node.doc.id node.id).isSome = keepMembers))

def describe : Predicate → String
  | position n => s!"Position({n})"
  | filter label _ => s!"NodeFilter({Text.quoted label})"
  | inInput keepMembers => s!"InOuter \x7b keep_members: {keepMembers} \x7d"

/-! ## Filters of callers -/

/-- A filter whose test never fails. -/
def ofTest (label : String) (test : Store → NodeRef → Bool) : Predicate :=
  .filter label fun store node => .ok (test store node)

/-- The identifier leaves a remainder. -/
def idMod (modulus remainder : Nat) : Predicate :=
  ofTest "id_mod" fun _ node => node.id % modulus = remainder

def ofKind (kind : NodeKind) : Predicate := ofTest "kind" fun _ node => node.kind = kind

def hasContext : Predicate := ofTest "has_context" fun _ node => node.hasContext

/-- The stored node has a local name. -/
def named (name : String) : Predicate :=
  ofTest "name" fun store node =>
    (store.nameOf? node.doc.id node.id).any (·.localPart = name)

/-- The stored node has a value. -/
def hasValue (value : String) : Predicate :=
  ofTest "value" fun store node => store.valueOf? node.doc.id node.id = some value

/-- A child or an attribute has a local name. -/
def hasChild (name : String) : Predicate :=
  ofTest "has_child" fun store node =>
    (store.source.children node.doc node.id).any fun child =>
      (store.nameOf? node.doc.id child.id).any (·.localPart = name)

/-- Fails at one identifier and lets every other node pass. -/
def failAt (id : Nat) (message : String) : Predicate :=
  .filter "fail_at" fun _ node =>
    if node.id = id then .error (.predicate message) else .ok true

end Predicate

end TreeAxes
