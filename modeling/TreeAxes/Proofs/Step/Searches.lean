import TreeAxes.Proofs.Step.Found
import TreeAxes.Proofs.Step.Streaming

/-!
# What searches gather

A search scans with a selector, joins its input with all nodes of a name, or streams. Whichever it
does, it gathers what the step asks for of what the relation of its axis reaches; if it remembers,
it keeps all origins. So what a new step answers is known from its plan, its input and the store.
-/

namespace TreeAxes

theorem Axis.exists_relation_iff {axis : Axis} :
    (∃ relation, axis.relation? = some relation) ↔ axis ≠ .namespaceAxis := by
  cases axis with
  | namespaceAxis => exact iff_of_false nofun (absurd rfl)
  | _ => exact iff_of_true ⟨_, rfl⟩ nofun

namespace Plan

/-- The step has no predicates, and nobody changes the store during its scans. -/
def IsPlain (plan : Plan) : Prop := plan.predicates = [] ∧ plan.index = .quiet

/-- A new step finds the nodes that a condition holds of, once each. -/
def Finds (plan : Plan) (input : InputSet) (store : Store)
    (holds : DocumentId × Nat → Prop) : Prop :=
  ∃ result, (plan.fresh.eval input store).outcome = .ok result ∧ (result.keys store).Nodup ∧
    ∀ key, key ∈ result.keys store ↔ holds key

variable {plan : Plan} {input : InputSet} {store : Store} {name : QName} {relation : Relation}

theorem Finds.congr {holds holds' : DocumentId × Nat → Prop} (h : plan.Finds input store holds)
    (hsame : ∀ key, holds key ↔ holds' key) : plan.Finds input store holds' := by
  obtain ⟨result, houtcome, hnodup, hmem⟩ := h
  exact ⟨result, houtcome, hnodup, fun key => (hmem key).trans (hsame key)⟩

/-- It is enough to know what a search in the store finds. -/
theorem finds_of_search (hplain : plan.predicates = []) {holds : DocumentId × Nat → Prop}
    (h : ∀ feed, ∃ result,
      (plan.search input.nodes (plan.searched input.nodes) none { store with feed }).outcome =
        .ok result ∧ ∀ key, key ∈ result.toNodeSet store.source ↔ holds key) :
    plan.Finds input store holds := by
  obtain ⟨feed, houtcome⟩ := Step.outcome_eval_fresh plan input store
  obtain ⟨result, hresult, hmem⟩ := h feed
  refine ⟨result.deduplicate, ?_, result.nodup_deduplicate store.source, fun key => ?_⟩
  · rw [houtcome, answer_ok hplain hresult]
  · rw [StepResult.mem_keys_iff, StepResult.mem_deduplicate, hmem]

/-! ## Scans and joins -/

/-- The step scans for a name, unless its test excludes what its axis leads to. -/
def ScansFor (plan : Plan) (name : QName) : Prop :=
  plan.test.name = some name ∧ (plan.axis.elementsOnly → plan.test.mayMatchElement)

/-- The step asks the index. -/
def scans (plan : Plan) : Bool :=
  plan.test.name.isSome && (!plan.axis.elementsOnly || plan.test.mayMatchElement)

theorem scans_iff : plan.scans ↔ ∃ name, plan.ScansFor name := by
  simp only [scans, ScansFor, Bool.and_eq_true, Option.isSome_iff_exists, exists_and_right,
    Bool.or_eq_true, Bool.not_eq_true', ← Bool.not_eq_true, imp_iff_not_or]

theorem ScansFor.search_eq (h : plan.ScansFor name)
    (hrelation : plan.axis.relation? = some relation) (input : NodeSet) (searched : DocumentSet)
    (preloaded : Option Preloaded) (store : Store) :
    plan.search input searched preloaded store =
      if plan.strategy = .pushdown then
        plan.pushdown name relation input searched preloaded store
      else plan.joinPreloaded name relation input searched preloaded store := by
  obtain ⟨hname, hmay⟩ := h
  rw [search, if_neg fun hexcludes => excludes_iff.mp hexcludes hmay, hname, hrelation]

/-- Without a name, a search streams. -/
theorem outcome_search_streams (hname : plan.test.name = none)
    (hmay : plan.axis.elementsOnly → plan.test.mayMatchElement) (input : NodeSet)
    (searched : DocumentSet) (preloaded : Option Preloaded) (store : Store) :
    (plan.search input searched preloaded store).outcome =
      .ok (plan.stream store.source input plan.remembers) := by
  rw [search, if_neg fun hexcludes => excludes_iff.mp hexcludes hmay, hname]

/-- If the test excludes what the axis leads to, nothing is found. -/
theorem outcome_search_excluded
    (hexcluded : ¬(plan.axis.elementsOnly → plan.test.mayMatchElement)) (input : NodeSet)
    (searched : DocumentSet) (preloaded : Option Preloaded) (store : Store) :
    (plan.search input searched preloaded store).outcome = .ok .empty := by
  rw [search, if_pos (excludes_iff.mpr hexcluded)]

theorem looksBack_of_pushdown (hrelation : plan.axis.relation? = some relation)
    (hstrategy : plan.strategy = .pushdown) : relation.looksBack := by
  have hselector : plan.axis.hasSelector := by
    rw [strategy] at hstrategy
    split at hstrategy
    · cases hstrategy
    · split at hstrategy
      · cases hstrategy
      · next hnot =>
        simp only [Bool.or_eq_true, not_or, Bool.not_eq_true, Bool.not_eq_false'] at hnot
        exact hnot.2
  cases haxis : plan.axis with
  | child | «attribute» | descendant | descendantOrSelf | descendantAttribute | ancestor
  | ancestorOrSelf | parent | self =>
    rw [haxis] at hrelation
    cases hrelation
    rfl
  | followingSibling | precedingSibling | following | preceding | namespaceAxis =>
    rw [haxis] at hselector
    cases hselector

/-! ## Searches that nobody disturbs -/

/-- A step that asks the index finds what a scan with a selector gives, or what a join gives. -/
theorem ScansFor.found_eq (hname : plan.ScansFor name)
    (hrelation : plan.axis.relation? = some relation) (input : NodeSet)
    (seen : DocumentId → Store) :
    plan.found input seen =
      if plan.strategy = .pushdown then
        .nodes (plan.scanned name (some (.ofContext relation input plan.remembers))
          (plan.searched input) seen)
      else
        .nodes ((plan.scanned name none (plan.searched input) seen).select input relation
          plan.remembers).1 :=
  found_of_relation (fun hexcludes => excludes_iff.mp hexcludes hname.2) hname.1 hrelation input
    seen

theorem found_excluded (hexcluded : ¬(plan.axis.elementsOnly → plan.test.mayMatchElement))
    (input : NodeSet) (seen : DocumentId → Store) : plan.found input seen = .empty := by
  rw [found, if_pos (excludes_iff.mpr hexcluded)]

theorem found_streamed (hname : plan.test.name = none)
    (hmay : plan.axis.elementsOnly → plan.test.mayMatchElement) (input : NodeSet) (store : Store) :
    plan.found input (fun _ => store) = plan.stream store.source input plan.remembers := by
  rw [found, if_neg fun hexcludes => excludes_iff.mp hexcludes hmay, hname]
  rfl

/-- A step that does not ask the index cannot fail. -/
theorem outcome_search_unscanned (hscans : ¬plan.scans) (input : NodeSet) (store : Store) :
    (plan.search input (plan.searched input) none store).outcome =
      .ok (plan.found input fun _ => store) := by
  by_cases hmay : plan.axis.elementsOnly → plan.test.mayMatchElement
  · have hname : plan.test.name = none := by
      cases hcase : plan.test.name with
      | none => rfl
      | some name => exact absurd (scans_iff.mpr ⟨name, hcase, hmay⟩) hscans
    rw [outcome_search_streams hname hmay, found_streamed hname hmay]
  · rw [outcome_search_excluded hmay, found_excluded hmay]

/-- A step that asks the index finds what the store holds, unless the scan is to fail. -/
theorem outcome_search_scanned (hquiet : plan.index = .quiet) (haxis : plan.axis ≠ .namespaceAxis)
    (hscans : plan.scans) (input : NodeSet) (store : Store) :
    (plan.search input (plan.searched input) none store).outcome =
      if store.failNext then .error (.index .injected)
      else .ok (plan.found input fun _ => store) := by
  obtain ⟨name, hname⟩ := scans_iff.mp hscans
  obtain ⟨relation, hrelation⟩ := Axis.exists_relation_iff.mpr haxis
  rw [hname.search_eq hrelation, hname.found_eq hrelation]
  split
  · simp only [pushdown, hquiet, Index.scan_quiet]
    split
    · rfl
    · rfl
  · simp only [joinPreloaded, Option.filter_none, hquiet, Index.scan_quiet]
    by_cases hfail : store.failNext
    · rw [if_pos hfail, if_pos hfail]
    · rw [if_neg hfail, if_neg hfail]
      rfl

/-- Undisturbed and with nothing at hand, a search finds what the store holds, unless it asks the
index and the next scan is to fail. -/
theorem outcome_search_quiet (hquiet : plan.index = .quiet) (haxis : plan.axis ≠ .namespaceAxis)
    (input : NodeSet) (store : Store) :
    (plan.search input (plan.searched input) none store).outcome =
      if store.failNext && plan.scans then .error (.index .injected)
      else .ok (plan.found input fun _ => store) := by
  by_cases hscans : plan.scans
  · rw [outcome_search_scanned hquiet haxis hscans, hscans, Bool.and_true]
  · rw [outcome_search_unscanned hscans, Bool.eq_false_iff.mpr hscans, Bool.and_false]
    rfl

/-! ## What is asked for -/

/-- What a step asks for of what its relation reaches: what the index lists, or what streaming
lets pass; and nothing if its test excludes what its axis leads to. -/
def Asks (plan : Plan) (store : Store) (input : NodeSet) (key : DocumentId × Nat)
    (kind : NodeKind) : Prop :=
  (plan.axis.elementsOnly → plan.test.mayMatchElement) ∧
    match plan.test.name with
    | none => LazyNodes.Asks store plan.axis plan.test input.nodes key kind
    | some name => store.Lists plan.indexedKind name (plan.searched input) key kind

/-- The steps that find context nodes as they came, with what these remembered. -/
def KeepsEarlier (plan : Plan) : Prop := plan.test.name = none ∧ plan.KeepsOwn

/-- What a node remembers from a context node that it is reached from. -/
def Remembers (plan : Plan) (anchor : NodeRef) (key : DocumentId × Nat) (c : ContextNode) : Prop :=
  c = anchor.asContext ∨ plan.KeepsEarlier ∧ anchor.key = key ∧ c ∈ anchor.context

theorem asks_scanned_iff (h : plan.ScansFor name) {input : NodeSet} {key : DocumentId × Nat}
    {kind : NodeKind} : plan.Asks store input key kind ↔
      store.Lists plan.indexedKind name (plan.searched input) key kind := by
  rw [Asks, h.1]
  exact and_iff_right h.2

theorem asks_streamed_iff {input : NodeSet} (hname : plan.test.name = none)
    (hmay : plan.axis.elementsOnly → plan.test.mayMatchElement) {key : DocumentId × Nat}
    {kind : NodeKind} : plan.Asks store input key kind ↔
      LazyNodes.Asks store plan.axis plan.test input.nodes key kind := by
  rw [Asks, hname]
  exact and_iff_right hmay

/-- With nothing to ask for, an empty set keeps all origins. -/
theorem keepsOrigins_empty {hands : NodeRef → DocumentId × Nat → ContextNode → Prop}
    (hexcluded : ¬(plan.axis.elementsOnly → plan.test.mayMatchElement)) :
    NodeSet.empty.KeepsOrigins store relation input.nodes.nodes (plan.Asks store input.nodes)
      hands where
  stored := NodeSet.storedIn_empty store
  mem_iff key := by
    refine iff_of_false (NodeSet.not_mem_empty key) ?_
    rintro ⟨kind, hasked, -⟩
    exact hexcluded hasked.1
  recalls_iff key c := by
    refine iff_of_false ?_ ?_
    · rintro ⟨node, hnode, -⟩
      cases hnode
    · rintro ⟨kind, hasked, -⟩
      exact hexcluded hasked.1

/-- A result gathers what the step asks for, and keeps all origins if the step remembers. -/
structure Obtains (plan : Plan) (input : NodeSet) (store : Store) (relation : Relation)
    (found : NodeSet) : Prop where
  gathers : found.Gathers store relation input.nodes (plan.Asks store input)
  keepsOrigins : plan.remembers →
    found.KeepsOrigins store relation input.nodes (plan.Asks store input) plan.Remembers

theorem obtains_scanned (hname : plan.ScansFor name) {found : NodeSet}
    (hgathers : found.Gathers store relation input.nodes.nodes
      (store.Lists plan.indexedKind name (plan.searched input.nodes)))
    (hkeeps : plan.remembers → found.KeepsOrigins store relation input.nodes.nodes
      (store.Lists plan.indexedKind name (plan.searched input.nodes))
        fun anchor _ c => anchor.HandsOn true c) :
    plan.Obtains input.nodes store relation found where
  gathers := hgathers.congr fun _ _ _ => (asks_scanned_iff hname).symm
  keepsOrigins := by
    intro hremembers
    refine (hkeeps hremembers).congr (fun _ _ _ => (asks_scanned_iff hname).symm)
      fun anchor key c => ?_
    rw [Remembers, KeepsEarlier, hname.1]
    simp [NodeRef.HandsOn]

theorem obtains_streamed (hname : plan.test.name = none)
    (hmay : plan.axis.elementsOnly → plan.test.mayMatchElement)
    (hrelation : plan.axis.relation? = some relation) (hstore : store.Nested)
    (hinput : input.nodes.StoredIn store) :
    plan.Obtains input.nodes store relation
      ((plan.stream store.source input.nodes plan.remembers).toNodeSet store.source) where
  gathers := (gathers_stream hstore hinput hrelation hmay).congr
    fun _ _ _ => (asks_streamed_iff hname hmay).symm
  keepsOrigins := by
    intro hremembers
    rw [hremembers]
    refine (keepsOrigins_stream hstore hinput hrelation hmay).congr
      (fun _ _ _ => (asks_streamed_iff hname hmay).symm) fun anchor key c => ?_
    rw [Remembers, KeepsEarlier, hname]
    simp [Leaves, NodeRef.HandsOn]

/-- A step that asks the index finds what it asks for of what the relation of its axis reaches, and
keeps all origins if it remembers. -/
theorem ScansFor.obtains_found
    (hname : plan.ScansFor name) (hrelation : plan.axis.relation? = some relation)
    (hstore : store.Sound) (hinput : input.nodes.StoredIn store) (source : NodeSource) :
    plan.Obtains input.nodes store relation
      ((plan.found input.nodes fun _ => store).toNodeSet source) := by
  rw [hname.found_eq hrelation]
  split
  · next hstrategy =>
    have hback := looksBack_of_pushdown hrelation hstrategy
    refine obtains_scanned hname (NodeSet.gathers_selected hstore hinput hback) fun hremembers => ?_
    rw [hremembers]
    exact NodeSet.keepsOrigins_selected hstore hinput hback
  · refine obtains_scanned hname (NodeSet.gathers_joined hstore hinput) fun hremembers => ?_
    rw [hremembers]
    exact NodeSet.keepsOrigins_joined hstore hinput

/-- A step finds what it asks for, and keeps all origins if it remembers. -/
theorem obtains_found (hrelation : plan.axis.relation? = some relation) (hstore : store.Nested)
    (hinput : input.nodes.StoredIn store) :
    plan.Obtains input.nodes store relation
      ((plan.found input.nodes fun _ => store).toNodeSet store.source) := by
  by_cases hmay : plan.axis.elementsOnly → plan.test.mayMatchElement
  · cases hname : plan.test.name with
    | some name => exact ScansFor.obtains_found ⟨hname, hmay⟩ hrelation hstore.sound hinput _
    | none =>
      rw [found_streamed hname hmay]
      exact obtains_streamed hname hmay hrelation hstore hinput
  · have hempty := @keepsOrigins_empty plan input store relation plan.Remembers hmay
    rw [found_excluded hmay]
    exact ⟨hempty.toGathers, fun _ => hempty⟩

/-- A search obtains what the step asks for, unless a scan is to fail. -/
theorem search_obtains (hquiet : plan.index = .quiet)
    (hrelation : plan.axis.relation? = some relation) (hstore : store.Nested)
    (hinput : input.nodes.StoredIn store) :
    let outcome := (plan.search input.nodes (plan.searched input.nodes) none store).outcome
    if store.failNext && plan.scans then outcome = .error (.index .injected)
    else
      ∃ result, outcome = .ok result ∧
        plan.Obtains input.nodes store relation (result.toNodeSet store.source) := by
  intro outcome
  have haxis := Axis.exists_relation_iff.mp ⟨relation, hrelation⟩
  have hsearch := outcome_search_quiet hquiet haxis input.nodes store
  split
  · next hfail => rwa [if_pos hfail] at hsearch
  · next hready =>
    rw [if_neg hready] at hsearch
    exact ⟨_, hsearch, obtains_found hrelation hstore hinput⟩

/-- A new step without predicates finds what it asks for of what the relation of its axis
reaches. -/
theorem eval_gathers (hplain : plan.IsPlain) (hrelation : plan.axis.relation? = some relation)
    (hstore : store.Nested) (hinput : input.nodes.StoredIn store) :
    if store.failNext && plan.scans then
      (plan.fresh.eval input store).outcome = .error (.index .injected)
    else
      plan.Finds input store fun key => ∃ kind, plan.Asks store input.nodes key kind ∧
        store.Reaches relation kind input.nodes.nodes key := by
  have hsearch (feed : Feed) := @search_obtains plan input { store with feed } relation hplain.2
    hrelation (hstore.congr rfl (Nat.le_refl _)) hinput
  split
  · next hfail =>
    obtain ⟨feed, houtcome⟩ := Step.outcome_eval_fresh plan input store
    have hsearch := hsearch feed
    simp only [if_pos hfail] at hsearch
    rw [houtcome, answer, hsearch]
  · next hready =>
    refine finds_of_search hplain.1 fun feed => ?_
    have hsearch := hsearch feed
    simp only [if_neg hready] at hsearch
    obtain ⟨result, houtcome, hobtains⟩ := hsearch
    exact ⟨result, houtcome, hobtains.gathers.mem_iff⟩

end Plan

end TreeAxes
