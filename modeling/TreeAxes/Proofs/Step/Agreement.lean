import TreeAxes.Proofs.Step.Searches

/-!
# Strategies agree

A step for a name may scan with a selector or join its input with all nodes of the name; a step
for the same kind without a name goes over its axis by itself. The three share no code, but each
finds what the relation of the axis reaches, so they agree on every input of stored nodes. Only
the scans respect the documents that a step is told to search: the walks of the step without a
name stay with its input.
-/

namespace TreeAxes

namespace Plan

/-- The step looks for elements of a name, or on an attribute axis for attributes. -/
def LooksFor (plan : Plan) (name : QName) : Prop :=
  plan.test = if plan.axis.isAttributeAxis then .namedAttribute name else .namedElement name

/-- The same step for all nodes of the kind. -/
def nameless (plan : Plan) : Plan := { plan with test := { plan.test with name := none } }

variable {plan : Plan} {input : InputSet} {store : Store} {name : QName} {relation : Relation}

theorem LooksFor.scansFor (h : plan.LooksFor name) : plan.ScansFor name := by
  rw [ScansFor, h]
  constructor
  · split <;> rfl
  · intro honly
    rw [if_neg (Axis.not_isAttributeAxis honly)]
    rfl

theorem LooksFor.indexedKind_eq (h : plan.LooksFor name) :
    plan.indexedKind = if plan.axis.isAttributeAxis then .attribute else .element := by
  rw [indexedKind, h]
  cases plan.axis <;> rfl

/-- A new step for a name finds what the relation of its axis reaches in the documents that are
searched, of the name. -/
theorem eval_named (hplain : plan.IsPlain) (hname : plan.LooksFor name)
    (hrelation : plan.axis.relation? = some relation) (hstore : store.Nested)
    (hinput : input.nodes.StoredIn store) :
    if store.failNext then (plan.fresh.eval input store).outcome = .error (.index .injected)
    else
      plan.Finds input store fun key =>
        key.1 ∈ (plan.searched input.nodes).ids ∧
          store.Reaches relation plan.indexedKind.nodeKind input.nodes.nodes key ∧
            store.IsNamed name key := by
  have heval := eval_gathers hplain hrelation hstore hinput
  rw [scans_iff.mpr ⟨name, hname.scansFor⟩, Bool.and_true] at heval
  split at heval
  · next hfail =>
    rw [if_pos hfail]
    exact heval
  · next hready =>
    rw [if_neg hready]
    refine heval.congr fun key => ?_
    simp only [asks_scanned_iff hname.scansFor]
    constructor
    · rintro ⟨_, ⟨rfl, hdoc, hnamed⟩, hreaches⟩
      exact ⟨hdoc, hreaches, hnamed⟩
    · rintro ⟨hdoc, hreaches, hnamed⟩
      exact ⟨_, ⟨rfl, hdoc, hnamed⟩, hreaches⟩

/-- A new step without the name finds what the relation of its axis reaches. -/
theorem eval_nameless (hplain : plan.IsPlain) (hname : plan.LooksFor name)
    (hrelation : plan.axis.relation? = some relation) (hstore : store.Nested)
    (hinput : input.nodes.StoredIn store) :
    plan.nameless.Finds input store
      (store.Reaches relation plan.indexedKind.nodeKind input.nodes.nodes) := by
  have htest : plan.nameless.test.kind = plan.indexedKind.testKind := by
    rw [hname.indexedKind_eq, nameless, hname]
    split <;> rfl
  have hkind : plan.indexedKind.nodeKind = .attribute ↔ plan.axis.isAttributeAxis := by
    rw [hname.indexedKind_eq]
    split
    · next h => exact iff_of_true rfl h
    · next h => exact iff_of_false nofun h
  have heval := @eval_gathers plan.nameless input store relation hplain hrelation hstore hinput
  have hscans : plan.nameless.scans = false := rfl
  rw [hscans, Bool.and_false, if_neg Bool.false_ne_true] at heval
  refine heval.congr fun key => ?_
  simp only [@asks_streamed_iff plan.nameless store input.nodes rfl hname.scansFor.2]
  constructor
  · rintro ⟨kind, ⟨hmatches, -⟩, hreaches⟩
    rwa [(NodeTest.matchesKind_iff htest).mp hmatches] at hreaches
  · intro hreaches
    exact ⟨_, ⟨(NodeTest.matchesKind_iff htest).mpr rfl, Axis.opens_of_iff hkind⟩, hreaches⟩

/-- A step answers the same however it scans: as the step without the name does, restricted to
the nodes of the name in the documents that are searched. The step without the name stays in the
documents of its input, which are the documents that are searched unless others are given. If a
scan is to fail, both steps that scan say so. -/
theorem strategies_agree (hstore : store.Nested) (hinput : input.nodes.StoredIn store)
    (hplain : plan.IsPlain) (hname : plan.LooksFor name) (haxis : plan.axis ≠ .namespaceAxis) :
    let pushed : Plan := { plan with preload := false }
    let joined : Plan := { plan with preload := true, inUpdate := false }
    ∃ streamed : DocumentId × Nat → Prop, plan.nameless.Finds input store streamed ∧
      (∀ key, streamed key → key.1 ∈ input.nodes.documents.ids) ∧
      if store.failNext then
        (pushed.fresh.eval input store).outcome = .error (.index .injected) ∧
          (joined.fresh.eval input store).outcome = .error (.index .injected)
      else
        let found (key : DocumentId × Nat) :=
          key.1 ∈ (plan.searched input.nodes).ids ∧ streamed key ∧ store.IsNamed name key
        pushed.Finds input store found ∧ joined.Finds input store found := by
  intro pushed joined
  obtain ⟨relation, hrelation⟩ : ∃ relation, plan.axis.relation? = some relation := by
    cases hcase : plan.axis with
    | namespaceAxis => exact absurd hcase haxis
    | _ => exact ⟨_, rfl⟩
  refine ⟨store.Reaches relation plan.indexedKind.nodeKind input.nodes.nodes,
    eval_nameless hplain hname hrelation hstore hinput,
    fun _ hreaches => hreaches.mem_documents, ?_⟩
  have hpushed := @eval_named pushed _ _ _ _ hplain hname hrelation hstore hinput
  have hjoined := @eval_named joined _ _ _ _ hplain hname hrelation hstore hinput
  split
  · next hfail =>
    rw [if_pos hfail] at hpushed hjoined
    exact ⟨hpushed, hjoined⟩
  · next hready =>
    rw [if_neg hready] at hpushed hjoined
    exact ⟨hpushed, hjoined⟩

/-- Two documents of one shape. -/
def twins : Store :=
  let tree : Tree := .node (.element "r") [⟨"x", "1"⟩] [.leaf (.element "a")]
  .applyAll .empty [.add "one" tree, .add "two" tree]

/-- The root of the first document. -/
def firstRoot : InputSet := ⟨⟨0⟩, .ofList (twins.named ⟨1⟩ "r")⟩

def childrenNamed (label : String) (contextDocs : Option DocumentSet) : Plan :=
  { axis := .child, test := .namedElement (.ofLocal label), contextDocs }

theorem nested_twins : twins.Nested := by
  refine Store.nested_empty.applyAll fun change hchange => ?_
  have hleaf : (Tree.leaf (.element "a")).Nests := .node (.inl rfl) nofun
  have htree : (Tree.node (.element "r") [⟨"x", "1"⟩] [.leaf (.element "a")]).Nests :=
    .node (.inl rfl) fun child hchild => List.mem_singleton.mp hchild ▸ hleaf
  rcases List.mem_pair.mp hchange with rfl | rfl
  · exact htree
  · exact htree

theorem storedIn_firstRoot : firstRoot.nodes.StoredIn twins :=
  NodeSet.storedIn_ofList nested_twins fun _ => Store.storedIn_named nested_twins

/-- The step for a child of the first root agrees with itself. -/
theorem strategies_agree_firstRoot :
    let plan := childrenNamed "a" none
    ∃ streamed, plan.nameless.Finds firstRoot twins streamed ∧
      plan.Finds firstRoot twins (fun key =>
        key.1 ∈ firstRoot.nodes.documents.ids ∧ streamed key ∧ twins.IsNamed (.ofLocal "a") key) ∧
      { plan with preload := true }.Finds firstRoot twins (fun key =>
        key.1 ∈ firstRoot.nodes.documents.ids ∧ streamed key ∧
          twins.IsNamed (.ofLocal "a") key) := by
  intro plan
  obtain ⟨streamed, hstreamed, -, hfound⟩ :=
    @strategies_agree plan firstRoot twins (.ofLocal "a") nested_twins storedIn_firstRoot
      ⟨rfl, rfl⟩ rfl nofun
  have hready : ¬ twins.failNext := by decide
  rw [if_neg hready] at hfound
  exact ⟨streamed, hstreamed, hfound⟩

/-- Told to search the second document only, the scans miss the child of the first root, which
the step without the name finds. -/
theorem strategies_differ_firstRoot :
    let second := DocumentSet.ofList ((twins.document? ⟨2⟩).toList.map (·.doc))
    let plan := childrenNamed "a" (some second)
    (∃ streamed, plan.nameless.Finds firstRoot twins streamed ∧ streamed (⟨1⟩, 3)) ∧
      twins.IsNamed (.ofLocal "a") (⟨1⟩, 3) ∧
      plan.Finds firstRoot twins (fun _ => False) ∧
      { plan with preload := true }.Finds firstRoot twins (fun _ => False) := by
  intro second plan
  have hready : ¬ twins.failNext := by decide
  have hnone (preload : Bool) :
      { plan with preload }.Finds firstRoot twins (fun _ => False) := by
    have hfinds := @eval_named { plan with preload } firstRoot twins (.ofLocal "a") .child
      ⟨rfl, rfl⟩ rfl rfl nested_twins storedIn_firstRoot
    rw [if_neg hready] at hfinds
    obtain ⟨result, houtcome, hnodup, hmem⟩ := hfinds
    refine ⟨result, houtcome, hnodup, fun key => iff_false_intro fun hkey => ?_⟩
    obtain ⟨hsecond, hreaches, -⟩ := (hmem key).mp hkey
    have hfirst := hreaches.mem_documents
    have hdisjoint : ∀ doc ∈ second.ids, doc ∉ firstRoot.nodes.documents.ids := by
      decide +kernel
    exact hdisjoint key.1 hsecond hfirst
  refine ⟨⟨_, @eval_nameless plan firstRoot twins (.ofLocal "a") .child ⟨rfl, rfl⟩ rfl rfl
    nested_twins storedIn_firstRoot, ?_⟩, by decide +kernel, hnone false, hnone true⟩
  show twins.Reaches .child .element firstRoot.nodes.nodes (⟨1⟩, 3)
  decide +kernel

end Plan

end TreeAxes
