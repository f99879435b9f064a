import TreeAxes.Proofs.Step.Evaluation
import TreeAxes.Proofs.Step.Reach
import TreeAxes.Proofs.Store.Announced

/-!
# What a search finds

A search reads documents at different times, and others may change them meanwhile. What it finds
is a function of its input and of each document as it was read: `Plan.found`. Scans read the
documents that are searched, walks those of the input; nothing else is read.
-/

namespace TreeAxes

/-! ## Walks read one document -/

namespace NodeSource

variable {source other : NodeSource} {doc : Document}

theorem children_congr (h : source.kindOf doc = other.kindOf doc) (parent : Nat) :
    source.children doc parent = other.children doc parent := by
  rw [children, children, h]

theorem contents_congr (h : source.kindOf doc = other.kindOf doc) (node : Slot) :
    source.contents doc node = other.contents doc node := by
  rw [contents, contents, children_congr h]

theorem subtree_eq (source : NodeSource) (doc : Document) (node : Slot) :
    source.subtree doc node =
      node :: (source.contents doc node).flatMap (source.subtree doc) := by
  rw [subtree, List.flatMap_subtype (g := source.subtree doc) fun _ _ => rfl,
    List.unattach_attach]

theorem subtree_congr (h : source.kindOf doc = other.kindOf doc) (node : Slot) :
    source.subtree doc node = other.subtree doc node := by
  fun_induction subtree source doc node with
  | case1 node ih =>
    rw [← subtree, subtree_eq, subtree_eq other, contents_congr h]
    refine congrArg (node :: ·) (List.flatMap_congr fun child hchild => ih child ?_)
    rwa [contents_congr h]

theorem siblings_congr (h : source.kindOf doc = other.kindOf doc) (id : Nat)
    (direction : Direction) :
    source.siblings doc id direction = other.siblings doc id direction := by
  rw [siblings, siblings, children_congr h]

theorem besideClimb_congr (h : source.kindOf doc = other.kindOf doc) (direction : Direction)
    (id : Nat) : source.besideClimb doc direction id = other.besideClimb doc direction id := by
  fun_induction besideClimb source doc direction id with
  | case1 => rw [besideClimb, dif_pos rfl]
  | case2 id hid ih =>
    rw [ih, siblings_congr h, funext (subtree_congr h), besideClimb.eq_def other doc direction id,
      dif_neg hid]

theorem beyond_congr {node : NodeRef} (h : source.kindOf node.doc = other.kindOf node.doc)
    (direction : Direction) : source.beyond node direction = other.beyond node direction := by
  simp only [beyond, besideClimb_congr h, children_congr h, funext (subtree_congr h)]

end NodeSource

namespace Store

/-- The documents as various states of the store held them, as one node source. -/
def sourceAt (seen : DocumentId → Store) : NodeSource where
  kindOf doc id := (seen doc.id).source.kindOf doc id

/-- Whether two states of a store hold the same under an identifier. -/
def SameAt (doc : DocumentId) (s t : Store) : Prop := s.document? doc = t.document? doc

namespace SameAt

variable {doc : DocumentId} {s t : Store}

theorem hitsIn_eq (h : SameAt doc s t) (request : ScanRequest) :
    s.hitsIn request doc = t.hitsIn request doc := by
  rw [hitsIn, hitsIn, h]

theorem kindOf_eq {doc : Document} (h : SameAt doc.id s t) :
    s.source.kindOf doc = t.source.kindOf doc := by
  funext id
  simp only [source, show s.document? doc.id = t.document? doc.id from h]

theorem of_documents (h : s.documents = t.documents) : SameAt doc s t := by
  rw [SameAt, document?, document?, h]

end SameAt

theorem source_congr {s t : Store} (h : s.documents = t.documents) : s.source = t.source := by
  simp only [source, document?, h]

end Store

namespace Plan

/-- What a scan finds in some documents, each as it was read. -/
def scanned (plan : Plan) (name : QName) (selector : Option Selector) (docs : DocumentSet)
    (seen : DocumentId → Store) : NodeSet :=
  .ofList (docs.ids.flatMap fun doc =>
    (seen doc).hitsIn ⟨plan.indexedKind, name, selector⟩ doc)

/-- What a search finds for an input in documents, each as it was read. -/
def found (plan : Plan) (input : NodeSet) (seen : DocumentId → Store) : StepResult :=
  if plan.axis.elementsOnly && !plan.test.mayMatchElement then .empty
  else
    match plan.test.name, plan.axis.relation? with
    | none, _ => plan.stream (Store.sourceAt seen) input plan.remembers
    | some _, none => .empty
    | some name, some relation =>
      if plan.strategy = .pushdown then
        .nodes (plan.scanned name (some (.ofContext relation input plan.remembers))
          (plan.searched input) seen)
      else
        .nodes ((plan.scanned name none (plan.searched input) seen).select input relation
          plan.remembers).1

/-- The step walks through the documents of its input. -/
def Walks (plan : Plan) : Prop :=
  plan.test.name = none ∧
    plan.axis ∈ [.followingSibling, .precedingSibling, .following, .preceding]

variable {plan : Plan} {input : NodeSet} {seen seen' : DocumentId → Store} {docs : DocumentSet}

theorem scanned_congr {docs' : DocumentSet} (hids : docs.ids = docs'.ids)
    (h : ∀ doc ∈ docs.ids, Store.SameAt doc (seen doc) (seen' doc)) (name : QName)
    (selector : Option Selector) :
    plan.scanned name selector docs seen = plan.scanned name selector docs' seen' := by
  rw [scanned, scanned, ← hids]
  exact congrArg NodeSet.ofList (List.flatMap_congr fun doc hdoc => (h doc hdoc).hitsIn_eq _)

/-- With a name to ask the index for, nodes are found by a scan with a selector or by a join. -/
theorem found_of_relation {name : QName} {relation : Relation}
    (hmay : ¬(plan.axis.elementsOnly && !plan.test.mayMatchElement))
    (hname : plan.test.name = some name) (hrelation : plan.axis.relation? = some relation)
    (input : NodeSet) (seen : DocumentId → Store) :
    plan.found input seen =
      if plan.strategy = .pushdown then
        .nodes (plan.scanned name (some (.ofContext relation input plan.remembers))
          (plan.searched input) seen)
      else
        .nodes ((plan.scanned name none (plan.searched input) seen).select input relation
          plan.remembers).1 := by
  rw [found, if_neg hmay, hname, hrelation]

/-- A step that does not walk finds the same in the same searched documents. -/
theorem found_eq_of_not_walks (hwalks : ¬plan.Walks)
    (h : ∀ doc ∈ (plan.searched input).ids, Store.SameAt doc (seen doc) (seen' doc)) :
    plan.found input seen = plan.found input seen' := by
  rw [found, found]
  split
  · rfl
  · split
    · next hname =>
      cases haxis : plan.axis with
      | followingSibling | precedingSibling | following | preceding =>
        exact absurd ⟨hname, by rw [haxis]; decide⟩ hwalks
      | _ =>
        rw [stream, stream, haxis]
    · rfl
    · rw [scanned_congr rfl h, scanned_congr rfl h]

/-- What a step that walks visits from one node. -/
def walkOver (axis : Axis) (source : NodeSource) (node : NodeRef) : List Slot :=
  match axis with
  | .followingSibling => siblingWalk source .following node
  | .precedingSibling => siblingWalk source .preceding node
  | .following => source.beyond node .following
  | .preceding => source.beyond node .preceding
  | _ => []

/-- From one node the same is visited if its document is the same. -/
theorem walkOver_congr {node : NodeRef} (axis : Axis)
    (h : Store.SameAt node.doc.id (seen node.doc.id) (seen' node.doc.id)) :
    walkOver axis (Store.sourceAt seen) node = walkOver axis (Store.sourceAt seen') node := by
  have hkind : (Store.sourceAt seen).kindOf node.doc = (Store.sourceAt seen').kindOf node.doc :=
    h.kindOf_eq
  have hsiblings (direction : Direction) : siblingWalk (Store.sourceAt seen) direction node =
      siblingWalk (Store.sourceAt seen') direction node := by
    rw [siblingWalk, siblingWalk, NodeSource.siblings_congr hkind]
  cases axis with
  | followingSibling | precedingSibling => exact hsiblings _
  | following | preceding => exact NodeSource.beyond_congr hkind _
  | _ => rfl

theorem Walks.found_eq (h : plan.Walks) (input : NodeSet) (seen : DocumentId → Store) :
    plan.found input seen =
      .nodes (plan.streamWalk input plan.remembers (walkOver plan.axis (Store.sourceAt seen))) := by
  obtain ⟨hname, haxis⟩ := h
  rw [found, hname]
  simp only [List.mem_cons, List.not_mem_nil, or_false] at haxis
  obtain haxis | haxis | haxis | haxis := haxis
  all_goals
    rw [haxis]
    simp only [stream, haxis]
    rfl

/-- A step that walks finds the same in each document that is the same. -/
theorem Walks.mem_found_iff (h : plan.Walks) {source : NodeSource} {key : DocumentId × Nat}
    (hsame : Store.SameAt key.1 (seen key.1) (seen' key.1)) :
    key ∈ (plan.found input seen).toNodeSet source ↔
      key ∈ (plan.found input seen').toNodeSet source := by
  rw [h.found_eq, h.found_eq]
  show key ∈ NodeSet.ofList _ ↔ key ∈ NodeSet.ofList _
  simp only [NodeSet.mem_ofList, List.mem_flatMap, List.mem_map]
  refine exists_congr fun found => and_congr_left fun hkey => exists_congr fun node =>
    and_congr_right fun _ => ?_
  refine exists_congr fun slot => and_congr_left fun hfound => ?_
  have hdoc : key.1 = node.doc.id := by
    rw [hkey, ← hfound, NodeRef.key, NodeRef.reachedFrom_doc]
  rw [walkOver_congr plan.axis (hdoc ▸ hsame)]

/-- A search reads the documents that are searched and those of its input. -/
theorem found_congr
    (hsearched : ∀ doc ∈ (plan.searched input).ids, Store.SameAt doc (seen doc) (seen' doc))
    (hinput : ∀ doc ∈ input.documents.ids, Store.SameAt doc (seen doc) (seen' doc)) :
    plan.found input seen = plan.found input seen' := by
  by_cases hwalks : plan.Walks
  · rw [hwalks.found_eq, hwalks.found_eq, streamWalk, streamWalk]
    refine congrArg (fun found => StepResult.nodes (.ofList found))
      (List.flatMap_congr fun node hnode => ?_)
    have hdoc : node.doc.id ∈ input.documents.ids := NodeSet.mem_ids_documents.mpr
      ⟨node.id, NodeSet.mem_iff_exists_node.mpr ⟨node, hnode, rfl⟩⟩
    rw [walkOver_congr plan.axis (hinput _ hdoc)]
  · exact found_eq_of_not_walks hwalks hsearched

/-! ## Searches -/

/-- The ways in which a search can go. The nodes of a name that it finds come from a scan with a
selector, or from a join with nodes at hand or with nodes from a scan. -/
inductive Goes (plan : Plan) (input : NodeSet) (preloaded : Option Preloaded) (store : Store) :
    Search → Prop where
  | unscanned (result : StepResult) (hfound : result = plan.found input fun _ => store) :
    Goes plan input preloaded store ⟨.ok result, input, preloaded, store⟩
  | unsupported (haxis : plan.axis = .namespaceAxis) :
    Goes plan input preloaded store ⟨.error (.unsupportedAxis plan.axis), input, preloaded, store⟩
  | pushed (name : QName) (selector : Selector) (nodes : NodeSet) (after : Store)
      (hstrategy : plan.strategy = .pushdown)
      (hscan : plan.index.scan ⟨plan.indexedKind, name, some selector⟩ (plan.searched input)
        store = (.ok nodes, after))
      (hfound : ∀ seen, plan.found input seen =
        .nodes (plan.scanned name (some selector) (plan.searched input) seen)) :
    Goes plan input preloaded store ⟨.ok (.nodes nodes), input.sort, preloaded, after⟩
  | atHand (name : QName) (relation : Relation) (ready : Preloaded)
      (hname : plan.test.name = some name) (hready : preloaded = some ready)
      (hids : ready.docs.ids = (plan.searched input).ids)
      (hfound : ∀ seen, plan.found input seen =
        .nodes ((plan.scanned name none (plan.searched input) seen).select input relation
          plan.remembers).1) :
    Goes plan input preloaded store
      ⟨.ok (.nodes (ready.nodes.select input relation plan.remembers).1), input,
        some ⟨ready.docs, (ready.nodes.select input relation plan.remembers).2⟩, store⟩
  | joined (name : QName) (relation : Relation) (nodes : NodeSet) (after : Store)
      (hname : plan.test.name = some name)
      (hscan : plan.index.scan ⟨plan.indexedKind, name, none⟩ (plan.searched input) store =
        (.ok nodes, after))
      (hfound : ∀ seen, plan.found input seen =
        .nodes ((plan.scanned name none (plan.searched input) seen).select input relation
          plan.remembers).1) :
    Goes plan input preloaded store
      ⟨.ok (.nodes (nodes.select input relation plan.remembers).1), input,
        some ⟨plan.searched input, (nodes.select input relation plan.remembers).2⟩, after⟩
  | failed (request : ScanRequest) (fault : IndexError) (after : Store) (left : NodeSet)
      (kept : Option Preloaded)
      (hscan : plan.index.scan request (plan.searched input) store = (.error fault, after))
      (hleft : left = input ∨ left = input.sort ∧ plan.strategy = .pushdown)
      (hkept : ∀ ready ∈ kept, ready ∈ preloaded) :
    Goes plan input preloaded store ⟨.error (.index fault), left, kept, after⟩

theorem goes_search (plan : Plan) (input : NodeSet) (preloaded : Option Preloaded)
    (store : Store) :
    plan.Goes input preloaded store
      (plan.search input (plan.searched input) preloaded store) := by
  rw [search]
  split
  · next hmay =>
    refine .unscanned _ ?_
    rw [found, if_pos hmay]
  · next hmay =>
    split
    · next hname =>
      refine .unscanned _ ?_
      rw [found, if_neg hmay, hname]
      rfl
    · next hrelation =>
      refine .unsupported ?_
      cases hcase : plan.axis with
      | namespaceAxis => rfl
      | _ =>
        rw [hcase] at hrelation
        cases hrelation
    · next name relation hname hrelation =>
      have hfound := found_of_relation hmay hname hrelation input
      split
      · next hstrategy =>
        simp only [if_pos hstrategy] at hfound
        rw [pushdown]
        cases hscan : plan.index.scan
            ⟨plan.indexedKind, name, some (.ofContext relation input plan.remembers)⟩
            (plan.searched input) store with
        | mk outcome after =>
          cases outcome with
          | ok nodes => exact .pushed name _ nodes after hstrategy hscan hfound
          | error fault =>
            exact .failed _ fault after _ _ hscan (.inr ⟨rfl, hstrategy⟩) fun _ hready => hready
      · next hstrategy =>
        simp only [if_neg hstrategy] at hfound
        rw [joinPreloaded]
        cases hready : preloaded.filter (·.docs.sameIds (plan.searched input)) with
        | some ready =>
          obtain ⟨hready, hsame⟩ := Option.filter_eq_some_iff.mp hready
          exact .atHand name relation ready hname hready (of_decide_eq_true hsame) hfound
        | none =>
          cases hscan : plan.index.scan ⟨plan.indexedKind, name, none⟩ (plan.searched input)
              store with
          | mk outcome after =>
            cases outcome with
            | ok nodes => exact .joined name relation nodes after hname hscan hfound
            | error fault => exact .failed _ fault after _ _ hscan (.inl rfl) nofun

/-! ## Searches that nobody disturbs -/

section

variable {preloaded : Option Preloaded} {store : Store}

/-- A search fails only if the next scan is to fail. -/
theorem outcome_search (haxis : plan.axis ≠ .namespaceAxis) :
    (∃ result, (plan.search input (plan.searched input) preloaded store).outcome = .ok result) ∨
      store.failNext ∧ (plan.search input (plan.searched input) preloaded store).outcome =
        .error (.index .injected) := by
  have hgoes := plan.goes_search input preloaded store
  generalize plan.search input (plan.searched input) preloaded store = search at hgoes ⊢
  cases hgoes with
  | unsupported hnamespace => exact absurd hnamespace haxis
  | failed request fault after left kept hscan =>
    rw [Index.scan] at hscan
    split at hscan
    · next hfail =>
      cases hscan
      exact .inr ⟨hfail, rfl⟩
    · cases hscan
  | _ => exact .inl ⟨_, rfl⟩

/-- A scan that nobody disturbs leaves the documents and the feed as they are. -/
theorem store_scan_quiet {request : ScanRequest} {docs : DocumentSet} {after : Store}
    {outcome : Except IndexError NodeSet} (hindex : plan.index = .quiet)
    (hscan : plan.index.scan request docs store = (outcome, after)) :
    after.documents = store.documents ∧ after.feed = store.feed := by
  rw [hindex, Index.scan_quiet] at hscan
  split at hscan
  all_goals
    cases hscan
    exact ⟨rfl, rfl⟩

/-- A search that nobody disturbs leaves the documents and the feed as they are. -/
theorem store_search_quiet (hindex : plan.index = .quiet) :
    (plan.search input (plan.searched input) preloaded store).store.documents = store.documents ∧
      (plan.search input (plan.searched input) preloaded store).store.feed = store.feed := by
  have hgoes := plan.goes_search input preloaded store
  generalize plan.search input (plan.searched input) preloaded store = search at hgoes ⊢
  cases hgoes with
  | unscanned | unsupported | atHand => exact ⟨rfl, rfl⟩
  | pushed name selector nodes after hstrategy hscan => exact store_scan_quiet hindex hscan
  | joined name relation nodes after hname hscan => exact store_scan_quiet hindex hscan
  | failed request fault after left kept hscan => exact store_scan_quiet hindex hscan

/-- A scan that nobody disturbs finds what the store holds. -/
theorem scanned_of_scan_quiet {name : QName} {selector : Option Selector} {docs : DocumentSet}
    {nodes : NodeSet} {after : Store} (hindex : plan.index = .quiet)
    (hscan : plan.index.scan ⟨plan.indexedKind, name, selector⟩ docs store = (.ok nodes, after)) :
    nodes = plan.scanned name selector docs fun _ => store := by
  rw [hindex, Index.scan_quiet] at hscan
  split at hscan
  · cases hscan
  · cases hscan
    rfl

/-- A search that nobody disturbs and that has nothing at hand finds what the store holds. -/
theorem found_of_search_quiet (hindex : plan.index = .quiet) {result : StepResult}
    (h : (plan.search input (plan.searched input) none store).outcome = .ok result) :
    result = plan.found input fun _ => store := by
  have hgoes := plan.goes_search input none store
  generalize plan.search input (plan.searched input) none store = search at hgoes h
  cases hgoes with
  | unscanned found hfound =>
    cases h
    exact hfound
  | pushed name selector nodes after hstrategy hscan hfound =>
    cases h
    rw [hfound, scanned_of_scan_quiet hindex hscan]
  | joined name relation nodes after hname hscan hfound =>
    cases h
    rw [hfound, scanned_of_scan_quiet hindex hscan]
  | unsupported | failed => cases h
  | atHand name relation ready hname hready => cases hready

end

end Plan

end TreeAxes
