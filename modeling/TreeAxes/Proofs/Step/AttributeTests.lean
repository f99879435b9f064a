import TreeAxes.Proofs.Step.Agreement

/-!
# Attribute tests off the attribute axes

Off the attribute axes, a step for all attributes finds none by streaming, but for context nodes
on the descendant-or-self axis. A step for the attributes of a name takes what the index lists and
relates it by identifiers, which do not tell attributes from children. So on the axes that lead
downwards it meets attributes that streaming leaves out. Everywhere else the strategies agree.
-/

namespace TreeAxes

/-- The relation to nodes below, of an axis that leads there but not to attributes. -/
def Axis.below? : Axis → Option Relation
  | .child => some .child
  | .descendant | .descendantOrSelf => some (.descendant false)
  | _ => none

/-! ## Attributes within reach -/

namespace Store

variable {store : Store} {relation : Relation} {kind : NodeKind} {contexts : List NodeRef}
  {key : DocumentId × Nat}

theorem reaches_descendant_true_iff :
    store.Reaches (.descendant true) kind contexts key ↔
      store.Reaches .self kind contexts key ∨
        store.Reaches (.descendant false) kind contexts key := by
  constructor
  · rintro ⟨d, hd, hid, hholds, context, hcontext, hcid, -, ⟨-, hself⟩ | hbelow⟩
    · exact .inl ⟨d, hd, hid, hholds, context, hcontext, hcid, trivial, hself⟩
    · exact .inr ⟨d, hd, hid, hholds, context, hcontext, hcid, trivial, .inr hbelow⟩
  · rintro (⟨d, hd, hid, hholds, context, hcontext, hcid, -, hself⟩ |
      ⟨d, hd, hid, hholds, context, hcontext, hcid, -, ⟨hfalse, -⟩ | hbelow⟩)
    · exact ⟨d, hd, hid, hholds, context, hcontext, hcid, trivial, .inl ⟨rfl, hself⟩⟩
    · cases hfalse
    · exact ⟨d, hd, hid, hholds, context, hcontext, hcid, trivial, .inr hbelow⟩

theorem not_reaches_of_not_admits (h : ∀ context, ¬relation.Admits context kind) :
    ¬store.Reaches relation kind contexts key := by
  rintro ⟨d, -, -, -, context, -, -, hadmits, -⟩
  exact h context.kind hadmits

end Store

namespace Plan

variable {plan : Plan} {input : InputSet} {store : Store} {name : QName} {relation : Relation}
  {contexts : List NodeRef} {key : DocumentId × Nat}

/-- On the descendant-or-self axis, attributes among the context nodes that no context node stands
above. -/
def StreamsAttribute (plan : Plan) (store : Store) (contexts : List NodeRef)
    (key : DocumentId × Nat) : Prop :=
  plan.axis = .descendantOrSelf ∧ store.Reaches .self .attribute contexts key ∧
    ¬store.Reaches (.descendant false) .attribute contexts key

/-- Attributes below the context nodes, on an axis that leads there but not to attributes. -/
def MeetsBelow (plan : Plan) (store : Store) (contexts : List NodeRef)
    (key : DocumentId × Nat) : Prop :=
  ∃ relation ∈ plan.axis.below?, store.Reaches relation .attribute contexts key

/-- What the relation of an axis reaches is streamed or met below, unless the axis leads to elements
only, and of that the axis opens up what is streamed. -/
theorem reaches_attribute_iff (haxis : ¬plan.axis.isAttributeAxis)
    (hrelation : plan.axis.relation? = some relation) :
    (¬plan.axis.elementsOnly ∧ store.Reaches relation .attribute contexts key ↔
      plan.StreamsAttribute store contexts key ∨ plan.MeetsBelow store contexts key) ∧
    ((¬plan.axis.elementsOnly ∧
      plan.axis.Opens .attribute (¬store.Reaches (.descendant false) .attribute contexts key)) ∧
        store.Reaches relation .attribute contexts key ↔
          plan.StreamsAttribute store contexts key) := by
  rw [StreamsAttribute, MeetsBelow]
  cases hcase : plan.axis with
  | child | descendant =>
    rw [hcase] at hrelation
    cases hrelation
    simp [Axis.below?, Axis.Opens, Axis.elementsOnly]
  | descendantOrSelf =>
    rw [hcase] at hrelation
    cases hrelation
    rw [Store.reaches_descendant_true_iff]
    simp only [Axis.below?, Axis.Opens, Axis.elementsOnly, Option.mem_some_iff, exists_eq_left',
      Bool.false_eq_true, not_false_eq_true, true_and]
    tauto
  | followingSibling | precedingSibling =>
    rw [hcase] at hrelation
    cases hrelation
    have hnone (direction : Direction) :
        ¬store.Reaches (.sibling direction) .attribute contexts key :=
      Store.not_reaches_of_not_admits fun _ hadmits => hadmits.2 rfl
    simp [Axis.below?, hnone]
  | following | preceding =>
    rw [hcase] at hrelation
    cases hrelation
    have hnone (direction : Direction) :
        ¬store.Reaches (.beyond direction) .attribute contexts key :=
      Store.not_reaches_of_not_admits fun _ hadmits => hadmits rfl
    simp [Axis.below?, hnone]
  | self | parent | ancestor | ancestorOrSelf => simp [Axis.below?, Axis.elementsOnly]
  | «attribute» | descendantAttribute => exact absurd (by rw [hcase]; rfl) haxis
  | namespaceAxis =>
    rw [hcase] at hrelation
    cases hrelation

/-! ## What the strategies ask for -/

section

variable (htest : plan.test = .namedAttribute name)

include htest

theorem nameless_asks_attribute_iff {input : NodeSet} {kind : NodeKind} :
    plan.nameless.Asks store input key kind ↔
      kind = .attribute ∧ ¬plan.axis.elementsOnly ∧
        plan.axis.Opens kind (¬store.Reaches (.descendant false) kind input.nodes key) := by
  have hanyAttribute : plan.nameless.test = .anyAttribute := by
    rw [nameless, htest]
    rfl
  have haxis : plan.nameless.axis = plan.axis := rfl
  rw [Asks, hanyAttribute, haxis]
  simp only [LazyNodes.Asks, NodeTest.anyAttribute, NodeTest.matchesKind,
    NodeTest.mayMatchElement, decide_eq_true_eq, Bool.false_eq_true]
  tauto

theorem asks_attribute_iff {input : NodeSet} {kind : NodeKind} :
    plan.Asks store input key kind ↔
      kind = .attribute ∧ ¬plan.axis.elementsOnly ∧
        key.1 ∈ (plan.searched input).ids ∧ store.IsNamed name key := by
  have hindexed : plan.indexedKind = .attribute := by
    rw [indexedKind, htest]
    simp [NodeTest.namedAttribute]
  rw [Asks, hindexed, htest]
  simp only [Store.Lists, NodeTest.namedAttribute, NodeTest.mayMatchElement,
    IndexedKind.nodeKind, Bool.false_eq_true]
  tauto

end

/-! ## What the strategies find -/

section

variable (hplain : plan.IsPlain) (htest : plan.test = .namedAttribute name)
  (haxis : ¬plan.axis.isAttributeAxis) (hrelation : plan.axis.relation? = some relation)
  (hstore : store.Nested) (hinput : input.nodes.StoredIn store)

include hplain htest haxis hrelation hstore hinput

/-- A new step for all attributes finds what is streamed. -/
theorem eval_nameless_attribute :
    plan.nameless.Finds input store (plan.StreamsAttribute store input.nodes.nodes) := by
  have heval := @eval_gathers plan.nameless input store relation hplain hrelation hstore hinput
  have hscans : plan.nameless.scans = false := rfl
  rw [hscans, Bool.and_false, if_neg Bool.false_ne_true] at heval
  refine heval.congr fun key => ?_
  simp only [nameless_asks_attribute_iff htest]
  rw [← (reaches_attribute_iff haxis hrelation).2]
  constructor
  · rintro ⟨_, ⟨rfl, hasked⟩, hreaches⟩
    exact ⟨hasked, hreaches⟩
  · rintro ⟨hasked, hreaches⟩
    exact ⟨.attribute, ⟨rfl, hasked⟩, hreaches⟩

/-- A new step for the attributes of a name finds those that are streamed or met below, in the
documents that are searched, unless its scan is to fail. -/
theorem eval_named_attribute :
    if store.failNext && plan.scans then
      (plan.fresh.eval input store).outcome = .error (.index .injected)
    else
      plan.Finds input store fun key =>
        key.1 ∈ (plan.searched input.nodes).ids ∧ store.IsNamed name key ∧
          (plan.StreamsAttribute store input.nodes.nodes key ∨
            plan.MeetsBelow store input.nodes.nodes key) := by
  have heval := eval_gathers hplain hrelation hstore hinput
  split
  · next hfail => rwa [if_pos hfail] at heval
  · next hready =>
    rw [if_neg hready] at heval
    refine heval.congr fun key => ?_
    simp only [asks_attribute_iff htest]
    rw [← (reaches_attribute_iff haxis hrelation).1]
    constructor
    · rintro ⟨_, ⟨rfl, hmany, hdoc, hnamed⟩, hreaches⟩
      exact ⟨hdoc, hnamed, hmany, hreaches⟩
    · rintro ⟨hdoc, hnamed, hmany, hreaches⟩
      exact ⟨.attribute, ⟨rfl, hmany, hdoc, hnamed⟩, hreaches⟩

end

/-- Off the attribute axes, a step for the attributes of a name finds, however it scans, those of
that name which the step without the name streams, and besides the attributes of that name which
it meets below its input. The steps that scan say so if a scan is to fail. -/
theorem attribute_strategies (hstore : store.Nested) (hinput : input.nodes.StoredIn store)
    (hplain : plan.IsPlain) (htest : plan.test = .namedAttribute name)
    (haxis : ¬plan.axis.isAttributeAxis) (hsupported : plan.axis ≠ .namespaceAxis) :
    let pushed : Plan := { plan with preload := false }
    let joined : Plan := { plan with preload := true, inUpdate := false }
    let streamed := plan.StreamsAttribute store input.nodes.nodes
    plan.nameless.Finds input store streamed ∧
      if store.failNext && plan.scans then
        (pushed.fresh.eval input store).outcome = .error (.index .injected) ∧
          (joined.fresh.eval input store).outcome = .error (.index .injected)
      else
        let found (key : DocumentId × Nat) :=
          key.1 ∈ (plan.searched input.nodes).ids ∧ store.IsNamed name key ∧
            (streamed key ∨ plan.MeetsBelow store input.nodes.nodes key)
        pushed.Finds input store found ∧ joined.Finds input store found := by
  intro pushed joined streamed
  obtain ⟨relation, hrelation⟩ : ∃ relation, plan.axis.relation? = some relation := by
    cases hcase : plan.axis with
    | namespaceAxis => exact absurd hcase hsupported
    | _ => exact ⟨_, rfl⟩
  refine ⟨eval_nameless_attribute hplain htest haxis hrelation hstore hinput, ?_⟩
  have hpushed := @eval_named_attribute pushed _ _ _ _ hplain htest haxis hrelation hstore hinput
  have hjoined := @eval_named_attribute joined _ _ _ _ hplain htest haxis hrelation hstore hinput
  have hscans : pushed.scans = plan.scans ∧ joined.scans = plan.scans := ⟨rfl, rfl⟩
  rw [hscans.1] at hpushed
  rw [hscans.2] at hjoined
  split
  · next hfail =>
    rw [if_pos hfail] at hpushed hjoined
    exact ⟨hpushed, hjoined⟩
  · next hready =>
    rw [if_neg hready] at hpushed hjoined
    exact ⟨hpushed, hjoined⟩

/-- The step for attributes of a name on an axis. -/
def attributesNamed (axis : Axis) (label : String) : Plan :=
  { axis, test := .namedAttribute (.ofLocal label) }

theorem attribute_strategies_firstRoot :
    let plan := attributesNamed .descendantOrSelf "x"
    let streamed := plan.StreamsAttribute twins firstRoot.nodes.nodes
    let found (key : DocumentId × Nat) :=
      key.1 ∈ (plan.searched firstRoot.nodes).ids ∧ twins.IsNamed (.ofLocal "x") key ∧
        (streamed key ∨ plan.MeetsBelow twins firstRoot.nodes.nodes key)
    plan.nameless.Finds firstRoot twins streamed ∧ plan.Finds firstRoot twins found ∧
      { plan with preload := true }.Finds firstRoot twins found := by
  intro plan streamed found
  obtain ⟨hstreamed, hfound⟩ :=
    @attribute_strategies plan firstRoot twins (.ofLocal "x") nested_twins storedIn_firstRoot
      ⟨rfl, rfl⟩ rfl nofun nofun
  have hready : ¬(twins.failNext && plan.scans) := by decide
  rw [if_neg hready] at hfound
  exact ⟨hstreamed, hfound⟩

/-- The children of the first root that are attributes are none when streamed, but its attribute
when scanned for by name. -/
theorem childAttributes_firstRoot :
    let plan := attributesNamed .child "x"
    (twins.Nested ∧ firstRoot.nodes.StoredIn twins) ∧
      plan.nameless.Finds firstRoot twins (fun _ => False) ∧ twins.IsNamed (.ofLocal "x") (⟨1⟩, 2) ∧
      ∀ preload, ∃ found, { plan with preload }.Finds firstRoot twins found ∧ found (⟨1⟩, 2) := by
  intro plan
  have hnamed : twins.IsNamed (.ofLocal "x") (⟨1⟩, 2) := by decide +kernel
  refine ⟨⟨nested_twins, storedIn_firstRoot⟩, ?_, hnamed, fun preload => ?_⟩
  · have hstreamed := @eval_nameless_attribute plan firstRoot twins (.ofLocal "x") .child
      ⟨rfl, rfl⟩ rfl nofun rfl nested_twins storedIn_firstRoot
    refine hstreamed.congr fun key => iff_of_false ?_ id
    rintro ⟨⟨⟩, -⟩
  · have hfinds := @eval_named_attribute { plan with preload } firstRoot twins (.ofLocal "x")
      .child ⟨rfl, rfl⟩ rfl nofun rfl nested_twins storedIn_firstRoot
    have hready : ¬(twins.failNext && plan.scans) := by decide
    have hscans : { plan with preload }.scans = plan.scans := rfl
    rw [hscans, if_neg hready] at hfinds
    refine ⟨_, hfinds, ?_, hnamed, .inr ⟨.child, rfl, ?_⟩⟩
    · show _ ∈ firstRoot.nodes.documents.ids
      decide +kernel
    · decide +kernel

end Plan

end TreeAxes
