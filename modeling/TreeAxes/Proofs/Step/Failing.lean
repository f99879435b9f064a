import TreeAxes.Proofs.Step.Invalidation
import TreeAxes.Proofs.Step.Reuse

/-!
# Evaluations that fail

An evaluation fails with the index, before anything is found, or with a predicate, after what was
found is cached. A scan that fails reads nothing, so a step never keeps a part of what it looked
for: what is cached or scanned ahead was found by reading every document that was searched.
-/

namespace TreeAxes

/-! ## Scans -/

namespace Index

variable {index : Index} {request : ScanRequest} {docs : DocumentSet} {store after : Store}

/-- The state of the store in which a scan reads a document. -/
def readAt (index : Index) (store : Store) : List DocumentId → DocumentId → Store
  | [], _ => store
  | doc :: docs, other =>
    let changed := store.applyAll (index.before doc)
    if other = doc then changed else index.readAt changed docs other

theorem read_eq_flatMap (index : Index) (request : ScanRequest) {docs : List DocumentId}
    (hdocs : docs.Nodup) (store : Store) :
    (index.read request docs store).1 =
      docs.flatMap fun doc => (index.readAt store docs doc).hitsIn request doc := by
  induction docs generalizing store with
  | nil => rfl
  | cons doc docs ih =>
    obtain ⟨hnot, hdocs⟩ := List.nodup_cons.mp hdocs
    show (store.applyAll (index.before doc)).hitsIn request doc ++
      (index.read request docs (store.applyAll (index.before doc))).1 = _
    rw [ih hdocs, List.flatMap_cons, readAt, if_pos rfl]
    refine congrArg (_ ++ ·) (List.flatMap_congr fun other hother => ?_)
    rw [readAt, if_neg fun heq : other = doc => hnot (heq ▸ hother)]

/-- A scan that succeeds finds what each of the documents holds when it is read. -/
theorem nodes_of_scan {nodes : NodeSet} (h : index.scan request docs store = (.ok nodes, after)) :
    nodes = .ofList (docs.ids.flatMap fun doc =>
      (index.readAt { store with scans := store.scans + 1 } docs.ids doc).hitsIn request doc) := by
  have hnodup : docs.ids.Nodup :=
    docs.pairwise_ids.imp fun {a b} hlt heq => Nat.ne_of_lt hlt (congrArg DocumentId.raw heq)
  rw [scan] at h
  split at h
  · cases h
  · rw [← index.read_eq_flatMap request hnodup]
    cases h
    rfl

/-- A scan that fails is counted and changes nothing else. -/
theorem store_of_scan_error {fault : IndexError}
    (h : index.scan request docs store = (.error fault, after)) :
    after = { store with scans := store.scans + 1, failNext := false } := by
  rw [scan] at h
  split at h
  · cases h
    rfl
  · cases h

end Index

/-! ## What was found on an occasion -/

/-- An evaluation as it begins to search: the store, the index that changes it meanwhile, and the
set that the step is evaluated for, if it is not a single node. -/
structure Occasion where
  index : Index
  store : Store
  input? : Option InputSet

/-- The documents are seen as they are before the search, or each as a scan of them all reads it. -/
def Occasion.Sees (o : Occasion) (docs : DocumentSet) (seen : DocumentId → Store) : Prop :=
  seen = (fun _ => o.store) ∨
    seen = o.index.readAt { o.store with scans := o.store.scans + 1 } docs.ids

/-- On some occasion the documents were seen so. -/
def Seen (past : List Occasion) (docs : DocumentSet) (seen : DocumentId → Store) : Prop :=
  ∃ o ∈ past, o.Sees docs seen

theorem Seen.later {past : List Occasion} {docs : DocumentSet} {seen : DocumentId → Store}
    (h : Seen past docs seen) (o : Occasion) : Seen (o :: past) docs seen := by
  obtain ⟨o', ho', hsees⟩ := h
  exact ⟨o', List.mem_cons_of_mem o ho', hsees⟩

/-- Nodes scanned ahead are all that a scan of the documents finds. -/
def Preloaded.Whole (ready : Preloaded) (plan : Plan) (past : List Occasion) : Prop :=
  ∃ name seen, plan.test.name = some name ∧ Seen past ready.docs seen ∧
    ready.nodes.sort = (plan.scanned name none ready.docs seen).sort

/-- A cached result is all that the step finds for a set that it was evaluated for. -/
def CacheEntry.Whole (entry : CacheEntry) (plan : Plan) (past : List Occasion) : Prop :=
  ∃ (input : InputSet) (seen : DocumentId → Store), (∃ o ∈ past, o.input? = some input) ∧
    entry.isValid input ∧ Seen past (plan.searched input.nodes) seen ∧
      entry.result = (plan.found input.nodes seen).deduplicate ∧
        entry.documents = entry.result.documents.union (plan.searched input.nodes)

/-- An input set holds what another one does. Sorting merges copies, so the nodes are the same and
have the same contexts. -/
structure InputSet.HoldsAs (left input : InputSet) : Prop where
  identity : left.identity = input.identity
  revision : left.nodes.revision = input.nodes.revision
  sort : left.nodes.sort = input.nodes.sort
  order : left.nodes = input.nodes ∨ left.nodes = input.nodes.sort

section

variable {plan : Plan} {past : List Occasion}

theorem Preloaded.Whole.later {ready : Preloaded} (h : ready.Whole plan past) (o : Occasion) :
    ready.Whole plan (o :: past) := by
  obtain ⟨name, seen, hname, hseen, hnodes⟩ := h
  exact ⟨name, seen, hname, hseen.later o, hnodes⟩

theorem CacheEntry.Whole.later {entry : CacheEntry} (h : entry.Whole plan past) (o : Occasion) :
    entry.Whole plan (o :: past) := by
  obtain ⟨input, seen, ⟨o', ho', hinput⟩, hvalid, hseen, hrest⟩ := h
  exact ⟨input, seen, ⟨o', List.mem_cons_of_mem o ho', hinput⟩, hvalid, hseen.later o, hrest⟩

end

namespace Plan

variable {plan : Plan} {input : NodeSet} {preloaded : Option Preloaded} {past : List Occasion}

/-- What a search finds and what it scans ahead is whole, if what it has at hand is. -/
theorem whole_search (input : NodeSet) (o : Occasion)
    (hready : ∀ ready ∈ preloaded, ready.Whole plan past) :
    let search := (plan.withIndex o.index).search input (plan.searched input) preloaded o.store
    (∀ ready ∈ search.preloaded, ready.Whole plan (o :: past)) ∧
      ∀ result, search.outcome = .ok result →
        ∃ seen, Seen (o :: past) (plan.searched input) seen ∧ result = plan.found input seen := by
  intro search
  have hscanned {name : QName} {selector : Option Selector} {nodes : NodeSet} {after : Store}
      (hscan : o.index.scan ⟨plan.indexedKind, name, selector⟩ (plan.searched input) o.store =
        (.ok nodes, after)) :
      ∃ seen, Seen (o :: past) (plan.searched input) seen ∧
        nodes = plan.scanned name selector (plan.searched input) seen :=
    ⟨_, ⟨o, List.mem_cons_self, .inr rfl⟩, Index.nodes_of_scan hscan⟩
  have hkept : ∀ ready ∈ preloaded, ready.Whole plan (o :: past) :=
    fun ready hmem => (hready ready hmem).later o
  have hgoes : (plan.withIndex o.index).Goes input preloaded o.store search :=
    (plan.withIndex o.index).goes_search input preloaded o.store
  generalize search = search at hgoes
  cases hgoes with
  | unscanned result hfound =>
    refine ⟨hkept, ?_⟩
    rintro _ ⟨⟩
    exact ⟨_, ⟨o, List.mem_cons_self, .inl rfl⟩, hfound⟩
  | unsupported haxis =>
    refine ⟨hkept, ?_⟩
    rintro _ ⟨⟩
  | pushed name selector nodes after hstrategy hscan hfound =>
    obtain ⟨seen, hseen, rfl⟩ := hscanned hscan
    refine ⟨hkept, ?_⟩
    rintro _ ⟨⟩
    exact ⟨seen, hseen, (hfound seen).symm⟩
  | atHand name relation ready hname hsome hids hfound =>
    -- What is at hand was scanned on an earlier occasion, for the same documents.
    obtain ⟨name', seen, hname', ⟨o', ho', hsees⟩, hnodes⟩ := hkept ready hsome
    obtain rfl := Option.some_inj.mp (hname.symm.trans hname')
    refine ⟨?_, ?_⟩
    · rintro _ ⟨⟩
      exact ⟨name, seen, hname, ⟨o', ho', hsees⟩, (NodeSet.sort_sort _).trans hnodes⟩
    · rintro _ ⟨⟩
      rw [Occasion.Sees, hids] at hsees
      have hsame : ∀ doc ∈ ready.docs.ids, Store.SameAt doc (seen doc) (seen doc) :=
        fun _ _ => rfl
      refine ⟨seen, ⟨o', ho', hsees⟩, Eq.trans ?_ (hfound seen).symm⟩
      simp only [NodeSet.select, hnodes, scanned_congr hids hsame]
      rfl
  | joined name relation nodes after hname hscan hfound =>
    obtain ⟨seen, hseen, rfl⟩ := hscanned hscan
    refine ⟨?_, ?_⟩
    · rintro _ ⟨⟩
      exact ⟨name, seen, hname, hseen, NodeSet.sort_sort _⟩
    · rintro _ ⟨⟩
      exact ⟨seen, hseen, (hfound seen).symm⟩
  | failed request fault after left kept hscan hleft hwas =>
    refine ⟨fun ready hmem => hkept ready (hwas ready hmem), ?_⟩
    rintro _ ⟨⟩

/-- A search fails with the index, and has nothing at hand then that it did not have before. -/
theorem index_of_search_error {store : Store} {fault : StepError}
    (haxis : plan.axis ≠ .namespaceAxis)
    (h : (plan.search input (plan.searched input) preloaded store).outcome = .error fault) :
    let search := plan.search input (plan.searched input) preloaded store
    (∃ request cause, fault = .index cause ∧
      plan.index.scan request (plan.searched input) store = (.error cause, search.store)) ∧
      ∀ ready ∈ search.preloaded, ready ∈ preloaded := by
  intro search
  have hgoes := plan.goes_search input preloaded store
  rw [show plan.search input (plan.searched input) preloaded store = search from rfl] at h hgoes
  generalize search = search at h hgoes
  cases hgoes with
  | failed request cause after left kept hscan hleft hkept =>
    cases h
    exact ⟨⟨request, cause, rfl, hscan⟩, hkept⟩
  | unsupported hnamespace => exact absurd hnamespace haxis
  | _ => cases h

theorem exists_narrow_of_narrowAll_error {axis : Axis} {store : Store} {ps : List Predicate}
    {set : NodeSet} {fault : StepError} (h : narrowAll axis store input ps set = .error fault) :
    ∃ p ∈ ps, ∃ candidates, p.narrow store (some input) candidates axis = .error fault := by
  induction ps generalizing set with
  | nil => cases h
  | cons p ps ih =>
    rw [narrowAll] at h
    cases hp : p.narrow store (some input) set axis with
    | error cause =>
      rw [hp] at h
      cases h
      exact ⟨p, List.mem_cons_self, set, hp⟩
    | ok narrowed =>
      rw [hp] at h
      obtain ⟨p', hp', hfails⟩ := ih h
      exact ⟨p', List.mem_cons_of_mem p hp', hfails⟩

/-- Only a predicate makes narrowing fail. -/
theorem exists_narrow_of_error {store : Store} {result : StepResult} {fault : StepError}
    (h : plan.applyPredicates store input result = .error fault) :
    ∃ p ∈ plan.predicates, ∃ candidates,
      p.narrow store (some input) candidates plan.axis = .error fault := by
  rw [applyPredicates] at h
  split at h
  · cases h
  · cases hall : narrowAll plan.axis store input plan.predicates
        (result.toNodeSet store.source) with
    | error cause =>
      rw [hall] at h
      cases h
      exact exists_narrow_of_narrowAll_error hall
    | ok narrowed =>
      rw [hall] at h
      cases h

end Plan

/-! ## Steps over time -/

namespace Step

/-- The states that a step comes to, with the occasions on which it was evaluated, the latest
first. Nothing is assumed about the stores that it meets. -/
inductive Arises (plan : Plan) : List Occasion → Step → Prop
  | new {step : Step} (h : ofPlan plan = .ok step) : Arises plan [] step
  | withIndex {past : List Occasion} {step : Step} (h : Arises plan past step) (index : Index) :
    Arises plan past (step.withIndex index)
  | eval {past : List Occasion} {step : Step} (h : Arises plan past step) (input : InputSet)
      (store : Store) :
    Arises plan (⟨step.plan.index, (step.takeIn store).2, some input⟩ :: past)
      (step.eval input store).step
  | evalItem {past : List Occasion} {step : Step} (h : Arises plan past step) (node : NodeRef)
      (store : Store) :
    Arises plan (⟨step.plan.index, (step.takeIn store).2, none⟩ :: past)
      (step.evalItem node store).2.1
  | hasCached {past : List Occasion} {step : Step} (h : Arises plan past step) (store : Store) :
    Arises plan past (step.hasCached store).2.1
  | hasPreloaded {past : List Occasion} {step : Step} (h : Arises plan past step)
      (store : Store) :
    Arises plan past (step.hasPreloaded store).2.1
  | reset {past : List Occasion} {step : Step} (h : Arises plan past step) :
    Arises plan past step.reset

variable {plan : Plan} {past : List Occasion} {step : Step} {store : Store}

/-- A step for a plan that keeps nothing in part. -/
structure KeepsWhole (plan : Plan) (past : List Occasion) (step : Step) : Prop where
  planned : ∃ index, step.plan = plan.withIndex index
  supported : plan.axis ≠ .namespaceAxis
  ready : ∀ ready ∈ step.preloaded, ready.Whole plan past
  cached : ∀ entry ∈ step.cached, entry.Whole plan past

theorem takeIn_step (step : Step) (store : Store) :
    (step.takeIn store).1 = (step.takenIn store).foldl applyEvent (step.subscribe store).1 :=
  drain_step _ _

/-- What a step still keeps after it took in events it kept before, and they do not outdate it. -/
theorem mem_takeIn (step : Step) (store : Store) :
    (∀ ready, ready ∈ (step.takeIn store).1.preloaded ↔
      ready ∈ step.preloaded ∧ ¬Outdates (step.takenIn store) ready.docs) ∧
      ∀ entry, entry ∈ (step.takeIn store).1.cached ↔
        entry ∈ step.cached ∧ ¬Outdates (step.takenIn store) entry.documents := by
  have hsubscribe : (step.subscribe store).1.preloaded = step.preloaded ∧
      (step.subscribe store).1.cached = step.cached := by
    rw [subscribe]
    split <;> exact ⟨rfl, rfl⟩
  rw [takeIn_step, ← hsubscribe.1, ← hsubscribe.2]
  obtain ⟨-, hpreloaded, hcached⟩ := (step.subscribe store).1.foldl_applyEvent_spec
    (step.takenIn store)
  obtain ⟨hpreloaded', hcached'⟩ := (step.subscribe store).1.foldl_applyEvent_kept
    (step.takenIn store)
  exact ⟨fun ready => ⟨hpreloaded ready, fun h => hpreloaded' ready h.1 h.2⟩,
    fun entry => ⟨hcached entry, fun h => hcached' entry h.1 h.2⟩⟩

/-- A step that takes in events listens from then on, and no event waits for it. -/
theorem events_takeIn (step : Step) (store : Store) :
    ∃ id, (step.takeIn store).1.listener = some id ∧ (step.takeIn store).2.feed.events id = [] := by
  cases hlistener : step.listener with
  | none =>
    obtain ⟨hid, -, hfeed⟩ := @takeIn_of_none _ store hlistener
    exact ⟨_, hid, hfeed ▸ Feed.events_drain _ _⟩
  | some id =>
    obtain ⟨htakeIn, -, hfeed⟩ := @takeIn_of_some _ store _ hlistener
    refine ⟨id, ?_, hfeed ▸ Feed.events_drain _ _⟩
    rw [htakeIn, listener_drain, hlistener]

/-- What is found for a set answers for the set as it was before the search. -/
theorem isValid_ofResult (step : Step) (input : InputSet) (store : Store) (result : StepResult)
    (searched : DocumentSet) :
    (CacheEntry.ofResult { input with nodes := (step.searchFor input.nodes store).input } result
      searched).isValid input := by
  refine CacheEntry.isValid_iff.mpr ⟨rfl, ?_⟩
  obtain hsame | hsorted := step.plan.input_search input.nodes step.preloaded store
  · exact congrArg NodeSet.revision hsame
  · exact (congrArg NodeSet.revision hsorted).trans input.nodes.sort_revision

namespace KeepsWhole

/-- A step may forget what it keeps. -/
theorem forget (h : step.KeepsWhole plan past) {left : Step}
    (hplanned : ∃ index, left.plan = step.plan.withIndex index)
    (hready : ∀ ready ∈ left.preloaded, ready ∈ step.preloaded)
    (hcached : ∀ entry ∈ left.cached, entry ∈ step.cached) : left.KeepsWhole plan past where
  planned := by
    obtain ⟨index, hindex⟩ := hplanned
    obtain ⟨own, hown⟩ := h.planned
    exact ⟨index, by rw [hindex, hown]; rfl⟩
  supported := h.supported
  ready ready hmem := h.ready ready (hready ready hmem)
  cached entry hmem := h.cached entry (hcached entry hmem)

theorem drain (h : step.KeepsWhole plan past) (store : Store) :
    (step.drain store).1.KeepsWhole plan past := by
  obtain ⟨-, hready, hcached⟩ := step.foldl_applyEvent_spec (step.drained store)
  rw [← drain_step] at hready hcached
  exact h.forget ⟨step.plan.index, step.drain_plan store⟩ (fun ready hmem => (hready ready hmem).1)
    fun entry hmem => (hcached entry hmem).1

theorem takeIn (h : step.KeepsWhole plan past) (store : Store) :
    (step.takeIn store).1.KeepsWhole plan past :=
  h.forget ⟨step.plan.index, step.takeIn_plan store⟩
    (fun ready hmem => (((step.mem_takeIn store).1 ready).mp hmem).1)
    fun entry hmem => (((step.mem_takeIn store).2 entry).mp hmem).1

/-- What a search adds to what a step keeps is whole. -/
theorem searchFor (h : step.KeepsWhole plan past) (input : NodeSet) (store : Store)
    (input? : Option InputSet) :
    let o : Occasion := ⟨step.plan.index, store, input?⟩
    (∀ ready ∈ (step.searchFor input store).preloaded, ready.Whole plan (o :: past)) ∧
      ∀ result, (step.searchFor input store).outcome = .ok result →
        ∃ seen, Seen (o :: past) (plan.searched input) seen ∧ result = plan.found input seen := by
  intro o
  obtain ⟨index, hindex⟩ := h.planned
  have hsearch : step.searchFor input store =
      (plan.withIndex o.index).search input (plan.searched input) step.preloaded o.store := by
    rw [Step.searchFor, show o.index = step.plan.index from rfl, hindex]
    rfl
  rw [hsearch]
  exact Plan.whole_search input o h.ready

/-- An evaluation for a set searches and caches what it finds, unless it has an answer. -/
theorem respond (h : step.KeepsWhole plan past) (input : InputSet) (store : Store) :
    (step.respond input store).step.KeepsWhole plan
      (⟨step.plan.index, store, some input⟩ :: past) := by
  let o : Occasion := ⟨step.plan.index, store, some input⟩
  have hcached : ∀ entry ∈ step.cached, entry.Whole plan (o :: past) :=
    fun entry hmem => (h.cached entry hmem).later o
  rw [Step.respond]
  cases step.entryFor? input with
  | some entry => exact ⟨h.planned, h.supported, fun ready hmem => (h.ready ready hmem).later o,
      hcached⟩
  | none =>
    obtain ⟨hready, hfound⟩ := h.searchFor input.nodes store (some input)
    refine ⟨h.planned, h.supported, hready, fun entry hmem => ?_⟩
    cases houtcome : (step.searchFor input.nodes store).outcome with
    | error fault =>
      simp only [houtcome] at hmem
      exact hcached entry hmem
    | ok result =>
      simp only [houtcome] at hmem
      obtain rfl := Option.some_inj.mp hmem
      obtain ⟨seen, hseen, hresult⟩ := hfound result houtcome
      obtain ⟨index, hindex⟩ := h.planned
      refine ⟨input, seen, ⟨o, List.mem_cons_self, rfl⟩,
        step.isValid_ofResult input store _ _, hseen, congrArg StepResult.deduplicate hresult, ?_⟩
      rw [hindex]
      rfl

end KeepsWhole

/-- A step keeps nothing in part, whatever the stores that it meets. -/
theorem Arises.keepsWhole (h : step.Arises plan past) : step.KeepsWhole plan past := by
  induction h with
  | new hnew =>
    rw [ofPlan] at hnew
    split at hnew
    · cases hnew
    · next haxis =>
      cases hnew
      refine ⟨⟨plan.index, rfl⟩, haxis, fun ready hmem => ?_, fun entry hmem => ?_⟩
      · cases hmem
      · cases hmem
  | withIndex _ index ih => exact ih.forget ⟨index, rfl⟩ (fun _ => id) fun _ => id
  | @eval past step _ input store ih =>
    rw [eval_eq_respond, ← takeIn_plan]
    exact (ih.takeIn store).respond input _
  | @evalItem past step _ node store ih =>
    have htaken := ih.takeIn store
    rw [evalItem_eq, ← step.takeIn_plan store]
    exact ⟨htaken.planned, htaken.supported, (htaken.searchFor _ _ none).1,
      fun entry hmem => (htaken.cached entry hmem).later _⟩
  | @hasCached past step _ store ih | @hasPreloaded past step _ store ih =>
    show (step.drain store).1.KeepsWhole plan past
    exact ih.drain store
  | @reset past step _ ih =>
    refine ih.forget ⟨step.plan.index, rfl⟩ (fun ready hmem => ?_) fun entry hmem => ?_
    · cases hmem
    · cases hmem

/-! ## Failures -/

/-- What an evaluation leaves that failed with the index: the step forgot what the events outdate
that it took in, perhaps also what was scanned ahead, and nothing else. What is still cached answers
without a scan. -/
structure FailsWithIndex (plan : Plan) (past : List Occasion) (step : Step) (input : NodeSet)
    (store : Store) (left : Step) (after : Store) (fault : StepError) : Prop where
  reported : ∃ request cause, fault = .index cause ∧
    step.plan.index.scan request (plan.searched input) (step.takeIn store).2 =
      (.error cause, after)
  documents : after.documents = store.documents
  cached : ∀ entry, entry ∈ left.cached ↔
    entry ∈ step.cached ∧ ¬Outdates (step.takenIn store) entry.documents
  answers : ∀ entry ∈ left.cached, ∀ input : InputSet, entry.isValid input →
    (left.eval input after).store.scans = after.scans ∧
      (left.eval input after).outcome =
        plan.applyPredicates (left.takeIn after).2 input.nodes entry.result
  ready : ∀ ready ∈ left.preloaded, ready ∈ step.preloaded ∧ ready.Whole plan past

/-- What an evaluation for a set leaves that failed with a predicate: the step keeps what it found
for the set, now or before, and this cannot be narrowed. -/
structure FailsWithPredicate (plan : Plan) (past : List Occasion) (step : Step) (input : InputSet)
    (left : InputSet) (entry : CacheEntry) (after : Store) (fault : StepError) : Prop where
  reported : ∃ p ∈ plan.predicates, ∃ candidates,
    p.narrow after (some left.nodes) candidates plan.axis = .error fault
  narrowed : plan.applyPredicates after left.nodes entry.result = .error fault
  valid : entry.isValid input
  found : entry ∈ step.cached ∨ ∃ seen, Seen past (plan.searched input.nodes) seen ∧
    entry.result = (plan.found input.nodes seen).deduplicate
  whole : entry.Whole plan past

/-- An evaluation does not change what its input holds. If it fails, nothing is half-done. -/
structure FailsCleanly (plan : Plan) (past : List Occasion) (step : Step) (store : Store) :
    Prop where
  input : ∀ input : InputSet, (step.eval input store).input.HoldsAs input
  eval : ∀ (input : InputSet) (fault : StepError),
    (step.eval input store).outcome = .error fault →
      step.FailsWithIndex plan past input.nodes store (step.eval input store).step
        (step.eval input store).store fault ∨
      ∃ entry, (step.eval input store).step.cached = some entry ∧
        step.FailsWithPredicate plan
          (⟨step.plan.index, (step.takeIn store).2, some input⟩ :: past) input
          (step.eval input store).input entry (step.eval input store).store fault
  evalItem : ∀ (node : NodeRef) (fault : StepError),
    (step.evalItem node store).1 = .error fault →
      step.FailsWithIndex plan past (.ofList [node]) store (step.evalItem node store).2.1
        (step.evalItem node store).2.2 fault ∨
      ∃ p ∈ plan.predicates, ∃ input candidates,
        p.narrow (step.evalItem node store).2.2 (some input) candidates plan.axis = .error fault
  /-- Nothing is cached for one node. -/
  uncached : ∀ (node : NodeRef) (entry : CacheEntry),
    entry ∈ (step.evalItem node store).2.1.cached ↔
      entry ∈ step.cached ∧ ¬Outdates (step.takenIn store) entry.documents

theorem holdsAs_eval (step : Step) (input : InputSet) (store : Store) :
    (step.eval input store).input.HoldsAs input where
  identity := by
    rw [eval_eq_respond, respond]
    cases (step.takeIn store).1.entryFor? input <;> rfl
  revision := by
    obtain hsame | hsorted := step.input_eval input store
    · rw [hsame]
    · rw [hsorted, NodeSet.sort_revision]
  sort := by
    obtain hsame | hsorted := step.input_eval input store
    · rw [hsame]
    · rw [hsorted, NodeSet.sort_sort]
  order := step.input_eval input store

theorem KeepsWhole.searched_eq (h : step.KeepsWhole plan past) (input : NodeSet) :
    step.plan.searched input = plan.searched input := by
  obtain ⟨index, hindex⟩ := h.planned
  rw [hindex]
  rfl

/-- A search of a step fails with the index and scans nothing ahead. -/
theorem KeepsWhole.index_of_error (h : step.KeepsWhole plan past) {input : NodeSet}
    {search : Search} {fault : StepError} (hsearch : step.searchFor input store = search)
    (hfault : search.outcome = .error fault) :
    (∃ request cause, fault = .index cause ∧
      step.plan.index.scan request (plan.searched input) store = (.error cause, search.store)) ∧
      ∀ ready ∈ search.preloaded, ready ∈ step.preloaded := by
  have haxis : step.plan.axis ≠ .namespaceAxis := by
    obtain ⟨index, hindex⟩ := h.planned
    rw [hindex]
    exact h.supported
  subst hsearch
  rw [← h.searched_eq]
  exact Plan.index_of_search_error haxis hfault

/-- A search that fails leaves the step as it was after it took in events, but for what was scanned
ahead. -/
theorem KeepsWhole.failsWithIndex (h : step.KeepsWhole plan past) {input : NodeSet}
    {search : Search} {fault : StepError}
    (hsearch : (step.takeIn store).1.searchFor input (step.takeIn store).2 = search)
    (hfault : search.outcome = .error fault) :
    step.FailsWithIndex plan past input store
      { (step.takeIn store).1 with preloaded := search.preloaded } search.store fault := by
  have htaken := h.takeIn store
  have hplan := step.takeIn_plan store
  obtain ⟨index, hindex⟩ := h.planned
  obtain ⟨id, hid, hevents⟩ := step.events_takeIn store
  obtain ⟨feed, hstore⟩ := step.takeIn_store store
  obtain ⟨⟨request, cause, hcause, hscan⟩, hready⟩ := htaken.index_of_error hsearch hfault
  rw [hplan] at hscan
  have hafter := Index.store_of_scan_error hscan
  -- The scan announced nothing, so the next evaluation takes in no event and drops no entry.
  have hfeed : search.store.feed.events id = [] := by
    rw [hafter]
    exact hevents
  refine ⟨⟨request, cause, hcause, hscan⟩, ?_, fun entry => (step.mem_takeIn store).2 entry,
    fun entry hentry other hvalid => ?_, fun ready hmem => ?_⟩
  · rw [hafter, hstore]
  · let left : Step := { (step.takeIn store).1 with preloaded := search.preloaded }
    have hkept : (left.takeIn search.store).1.cached = some entry :=
      cached_takeIn hid hentry (hfeed ▸ not_outdates_nil)
    refine ⟨scans_eval_of_cached hkept hvalid, ?_⟩
    rw [outcome_eval_of_cached hkept hvalid, show left.plan = _ from hplan, hindex]
    rfl
  · exact ⟨(((step.mem_takeIn store).1 ready).mp (hready ready hmem)).1,
      htaken.ready ready (hready ready hmem)⟩

/-- An evaluation for a set fails with the index, or with a predicate after the set was searched. -/
theorem KeepsWhole.eval_error (h : step.KeepsWhole plan past) {input : InputSet}
    {fault : StepError} (hfault : (step.eval input store).outcome = .error fault) :
    step.FailsWithIndex plan past input.nodes store (step.eval input store).step
        (step.eval input store).store fault ∨
      ∃ entry, (step.eval input store).step.cached = some entry ∧
        step.FailsWithPredicate plan
          (⟨step.plan.index, (step.takeIn store).2, some input⟩ :: past) input
          (step.eval input store).input entry (step.eval input store).store fault := by
  have htaken := h.takeIn store
  have hwhole := (htaken.respond input (step.takeIn store).2).cached
  obtain ⟨index, hindex⟩ := htaken.planned
  obtain ⟨search, hsearch⟩ :
      ∃ search, (step.takeIn store).1.searchFor input.nodes (step.takeIn store).2 = search :=
    ⟨_, rfl⟩
  rw [takeIn_plan] at hwhole
  rw [Step.respond] at hwhole
  rw [eval_eq_respond, Step.respond] at hfault ⊢
  cases hentry : (step.takeIn store).1.entryFor? input with
  | some entry =>
    obtain ⟨hcached, hvalid⟩ := Option.filter_eq_some_iff.mp hentry
    simp only [hentry, hindex] at hfault hwhole ⊢
    refine .inr ⟨entry, hcached, Plan.exists_narrow_of_error hfault, hfault, hvalid, .inl ?_,
      hwhole entry hcached⟩
    exact (((step.mem_takeIn store).2 entry).mp hcached).1
  | none =>
    simp only [hentry, hsearch, Plan.answer] at hfault hwhole ⊢
    cases houtcome : search.outcome with
    | error cause =>
      simp only [houtcome] at hfault ⊢
      obtain rfl := Except.error.inj hfault
      exact .inl (h.failsWithIndex hsearch houtcome)
    | ok result =>
      simp only [houtcome, hindex] at hfault hwhole ⊢
      obtain ⟨seen, hseen, hresult⟩ := (htaken.searchFor input.nodes (step.takeIn store).2
        (some input)).2 result (hsearch ▸ houtcome)
      rw [takeIn_plan] at hseen
      refine .inr ⟨_, rfl, Plan.exists_narrow_of_error hfault, hfault, ?_,
        .inr ⟨seen, hseen, congrArg StepResult.deduplicate hresult⟩, hwhole _ rfl⟩
      rw [← hsearch]
      exact isValid_ofResult _ input _ _ _

/-- An evaluation for one node fails with the index or with a predicate. -/
theorem KeepsWhole.evalItem_error (h : step.KeepsWhole plan past) {node : NodeRef}
    {fault : StepError} (hfault : (step.evalItem node store).1 = .error fault) :
    step.FailsWithIndex plan past (.ofList [node]) store (step.evalItem node store).2.1
        (step.evalItem node store).2.2 fault ∨
      ∃ p ∈ plan.predicates, ∃ input candidates,
        p.narrow (step.evalItem node store).2.2 (some input) candidates plan.axis =
          .error fault := by
  obtain ⟨index, hindex⟩ := (h.takeIn store).planned
  obtain ⟨search, hsearch⟩ : ∃ search,
      (step.takeIn store).1.searchFor (.ofList [node]) (step.takeIn store).2 = search :=
    ⟨_, rfl⟩
  rw [evalItem_eq] at hfault ⊢
  simp only [hsearch, Plan.answer] at hfault ⊢
  cases houtcome : search.outcome with
  | error cause =>
    simp only [houtcome] at hfault
    obtain rfl := Except.error.inj hfault
    exact .inl (h.failsWithIndex hsearch houtcome)
  | ok result =>
    simp only [houtcome, hindex] at hfault
    obtain ⟨p, hp, candidates, hnarrow⟩ := Plan.exists_narrow_of_error hfault
    exact .inr ⟨p, hp, search.input, candidates, hnarrow⟩

/-- However a step came about, it fails cleanly in any store. -/
theorem Arises.failsCleanly (h : step.Arises plan past) (store : Store) :
    step.FailsCleanly plan past store where
  input input := step.holdsAs_eval input store
  eval _ _ := h.keepsWhole.eval_error
  evalItem _ _ := h.keepsWhole.evalItem_error
  uncached _ := (step.mem_takeIn store).2

/-- The step for the `a` below a node, which are scanned ahead. -/
def scannedBelow : Plan :=
  { axis := .child, test := .namedElement (.ofLocal "a"), preload := true }

/-- A store of two documents. -/
def halves : Store :=
  Store.empty.applyAll [.add "one" (Session.shallow (.text "t")),
    .add "two" (Session.shallow (.text "t"))]

/-- The root of one of the documents. -/
def half (id : Nat) : InputSet := ⟨⟨id⟩, .ofList (halves.named ⟨id⟩ "r")⟩

/-- The step has answered for the first document. -/
def halfway : Evaluation := scannedBelow.fresh.eval (half 1) halves

/-- When the scan for the second document fails, the answer for the first one stays and what was
scanned ahead of it goes. -/
theorem failsCleanly_halfway :
    let e := halfway.step.eval (half 2) halfway.store.failNextScan
    halfway.step.cached.isSome ∧ halfway.step.preloaded.isSome ∧
      e.outcome = .error (.index .injected) ∧ e.step.cached.isSome ∧ e.step.preloaded = none ∧
      halfway.step.FailsWithIndex scannedBelow
        [⟨.quiet, (scannedBelow.fresh.takeIn halves).2, some (half 1)⟩] (half 2).nodes
        halfway.store.failNextScan e.step e.store (.index .injected) := by
  intro e
  have hfault : e.outcome = .error (.index .injected) := by
    have hmap : e.outcome.map (fun _ => ()) = .error (.index .injected) := by decide +kernel
    cases houtcome : e.outcome with
    | error fault =>
      rw [houtcome] at hmap
      exact congrArg _ (Except.error.inj hmap)
    | ok result =>
      rw [houtcome] at hmap
      cases hmap
  have hforgotten : e.step.preloaded.isNone := by decide +kernel
  have harises : halfway.step.Arises scannedBelow _ := .eval (.new rfl) (half 1) halves
  refine ⟨rfl, rfl, hfault, by decide +kernel, Option.isNone_iff_eq_none.mp hforgotten, ?_⟩
  obtain hfails | ⟨entry, -, hfails⟩ := (harises.failsCleanly _).eval (half 2) _ hfault
  · exact hfails
  · obtain ⟨p, hp, -⟩ := hfails.reported
    cases hp

end Step

end TreeAxes
