import TreeAxes.Proofs.Step.Found

/-!
# What a step keeps

Between evaluations a step keeps a result and nodes scanned ahead. Both were found in documents as
they were read. Either the store still holds these documents, or an event that waits for the step
says otherwise, and the step forgets what it kept before it uses it again.
-/

namespace TreeAxes

/-- The same step over another index. -/
def Plan.withIndex (plan : Plan) (index : Index) : Plan := { plan with index }

def Step.withIndex (step : Step) (index : Index) : Step :=
  { step with plan := step.plan.withIndex index }

theorem CacheEntry.isValid_iff {entry : CacheEntry} {input : InputSet} : entry.isValid input ↔
    entry.identity = input.identity ∧ entry.revision = input.nodes.revision := by
  rw [isValid, Bool.and_eq_true, decide_eq_true_iff, decide_eq_true_iff]

/-- Events on which a step forgets what depends on some documents. -/
def Outdates (events : List ChangeEvent) (docs : DocumentSet) : Prop :=
  ∃ e ∈ events, e.kind = .added ∨ e.document ∈ docs.ids

theorem not_outdates_nil {docs : DocumentSet} : ¬Outdates [] docs := nofun

theorem Outdates.mono {events later : List ChangeEvent} {docs : DocumentSet}
    (h : Outdates events docs) (hsub : ∀ e ∈ events, e ∈ later) : Outdates later docs := by
  obtain ⟨e, he, hreason⟩ := h
  exact ⟨e, hsub e he, hreason⟩

namespace Store

variable {store after : Store} {id : ListenerId} {docs : DocumentSet}
  {seen : DocumentId → Store}

/-- Some documents are as they were read, unless an event that waits for a listener says
otherwise. -/
def Reflects (store : Store) (id : ListenerId) (docs : DocumentSet)
    (seen : DocumentId → Store) : Prop :=
  Outdates (store.feed.events id) docs ∨ ∀ doc ∈ docs.ids, SameAt doc (seen doc) store

theorem reflects_of_leads (h : ∀ doc, Leads id (seen doc) store) : store.Reflects id docs seen := by
  by_cases hsame : ∀ doc ∈ docs.ids, SameAt doc (seen doc) store
  · exact .inr hsame
  · push Not at hsame
    obtain ⟨doc, hdoc, hne⟩ := hsame
    obtain heq | ⟨e, he, rfl⟩ := (h doc).told doc
    · exact absurd heq.symm hne
    · exact .inl ⟨e, he, .inr hdoc⟩

namespace Reflects

theorem leads (h : store.Reflects id docs seen) (hleads : Leads id store after) :
    after.Reflects id docs seen := by
  obtain ⟨e, he, houtdates⟩ | hsame := h
  · exact .inl ⟨e, hleads.kept e he, houtdates⟩
  · by_cases hstill : ∀ doc ∈ docs.ids, SameAt doc store after
    · exact .inr fun doc hdoc => (hsame doc hdoc).trans (hstill doc hdoc)
    · push Not at hstill
      obtain ⟨doc, hdoc, hne⟩ := hstill
      obtain heq | ⟨e, he, rfl⟩ := hleads.told doc
      · exact absurd heq.symm hne
      · exact .inl ⟨e, he, .inr hdoc⟩

/-- Once the events are taken in, what is not outdated is as it was read. -/
theorem same (h : store.Reflects id docs seen) (houtdates : ¬Outdates (store.feed.events id) docs) :
    ∀ doc ∈ docs.ids, SameAt doc (seen doc) store := h.resolve_left houtdates

end Reflects

end Store

/-- Nodes scanned ahead are what a scan found, unless an event says otherwise. -/
def Preloaded.Current (ready : Preloaded) (plan : Plan) (id : ListenerId) (store : Store) : Prop :=
  ∃ name seen, plan.test.name = some name ∧
    ready.nodes.sort = (plan.scanned name none ready.docs seen).sort ∧
      store.Reflects id ready.docs seen

theorem Preloaded.Current.leads {ready : Preloaded} {plan : Plan} {id : ListenerId}
    {store later : Store} (h : ready.Current plan id store) (hleads : Store.Leads id store later) :
    ready.Current plan id later := by
  obtain ⟨name, seen, hname, hnodes, hreflects⟩ := h
  exact ⟨name, seen, hname, hnodes, hreflects.leads hleads⟩

/-- A cached result is what a search found for an input, unless an event says otherwise. -/
def CacheEntry.Current (entry : CacheEntry) (plan : Plan) (base : NodeSet) (id : ListenerId)
    (store : Store) : Prop :=
  ∃ seen, entry.result = (plan.found base seen).deduplicate ∧
    entry.documents = entry.result.documents.union (plan.searched base) ∧
      store.Reflects id entry.documents seen

namespace Plan

variable {plan : Plan} {store : Store} {id : ListenerId} {input : NodeSet}
  {preloaded : Option Preloaded}

/-- What a search leaves behind, and what it finds if it does not fail. -/
structure Sound (plan : Plan) (input : NodeSet) (id : ListenerId) (store : Store)
    (search : Search) : Prop where
  served : search.store.feed.Serves id
  leads : Store.Leads id store search.store
  ready : ∀ p ∈ search.preloaded, p.Current plan id search.store
  /-- The input is left as it is, or sorted because a selector looks into it. -/
  left : search.input = input ∨ search.input = input.sort ∧ plan.strategy = .pushdown
  found : ∀ result, search.outcome = .ok result → ∃ seen, result = plan.found input seen ∧
    ∀ doc, Store.Leads id (seen doc) search.store

/-- A search with nothing to take in reads what the store holds, and what it keeps is current. -/
theorem sound_search (hserved : store.feed.Serves id) (hdrained : store.feed.events id = [])
    (hready : ∀ p ∈ preloaded, p.Current plan id store) :
    plan.Sound input id store (plan.search input (plan.searched input) preloaded store) := by
  have hscan (request : ScanRequest) :=
    plan.index.scan_spec request (plan.searched input) hserved
  have hgoes := plan.goes_search input preloaded store
  generalize plan.search input (plan.searched input) preloaded store = search at hgoes ⊢
  cases hgoes with
  | unscanned result hfound =>
    refine ⟨hserved, .refl store, hready, .inl rfl, ?_⟩
    rintro _ ⟨⟩
    exact ⟨_, hfound, fun _ => .refl store⟩
  | unsupported haxis =>
    refine ⟨hserved, .refl store, hready, .inl rfl, ?_⟩
    rintro _ ⟨⟩
  | pushed name selector nodes after hstrategy houtcome hfound =>
    have hscan := hscan ⟨plan.indexedKind, name, some selector⟩
    rw [houtcome] at hscan
    obtain ⟨hserved, hleads, hnodes⟩ := hscan
    obtain ⟨seen, rfl, hseen⟩ := hnodes nodes rfl
    refine ⟨hserved, hleads, fun p hp => ?_, .inr ⟨rfl, hstrategy⟩, ?_⟩
    · exact (hready p hp).leads hleads
    · rintro _ ⟨⟩
      exact ⟨seen, (hfound seen).symm, hseen⟩
  | atHand name relation ready hname hsome hids hfound =>
    obtain ⟨name', seen, hname', hnodes, hreflects⟩ := hready ready hsome
    obtain rfl := Option.some_inj.mp (hname.symm.trans hname')
    have hsame := hreflects.same (hdrained ▸ not_outdates_nil)
    refine ⟨hserved, .refl store, ?_, .inl rfl, ?_⟩
    · rintro p ⟨⟩
      exact ⟨name, seen, hname, (NodeSet.sort_sort _).trans hnodes, hreflects⟩
    · rintro _ ⟨⟩
      refine ⟨fun _ => store, ?_, fun _ => .refl store⟩
      simp only [hfound, NodeSet.select, hnodes, scanned_congr hids hsame]
  | joined name relation nodes after hname houtcome hfound =>
    have hscan := hscan ⟨plan.indexedKind, name, none⟩
    rw [houtcome] at hscan
    obtain ⟨hserved, hleads, hnodes⟩ := hscan
    obtain ⟨seen, rfl, hseen⟩ := hnodes nodes rfl
    refine ⟨hserved, hleads, ?_, .inl rfl, ?_⟩
    · rintro p ⟨⟩
      exact ⟨name, seen, hname, NodeSet.sort_sort _, Store.reflects_of_leads hseen⟩
    · rintro _ ⟨⟩
      exact ⟨seen, (hfound seen).symm, hseen⟩
  | failed request fault after left kept houtcome hleft hkept =>
    have hscan := hscan request
    rw [houtcome] at hscan
    obtain ⟨hserved, hleads, -⟩ := hscan
    refine ⟨hserved, hleads, fun p hp => (hready p (hkept p hp)).leads hleads, hleft, ?_⟩
    rintro _ ⟨⟩

end Plan

/-! ## Taking in -/

theorem Preloaded.Current.drained {ready : Preloaded} {plan : Plan} {id : ListenerId}
    {store : Store} (h : ready.Current plan id store)
    (houtdates : ¬Outdates (store.feed.events id) ready.docs) (feed : Feed) :
    ready.Current plan id { store with feed } := by
  obtain ⟨name, seen, hname, hnodes, hreflects⟩ := h
  exact ⟨name, seen, hname, hnodes, .inr (hreflects.same houtdates)⟩

theorem CacheEntry.Current.leads {entry : CacheEntry} {plan : Plan} {base : NodeSet}
    {id : ListenerId} {store later : Store} (h : entry.Current plan base id store)
    (hleads : Store.Leads id store later) : entry.Current plan base id later := by
  obtain ⟨seen, hresult, hdocuments, hreflects⟩ := h
  exact ⟨seen, hresult, hdocuments, hreflects.leads hleads⟩

theorem CacheEntry.Current.drained {entry : CacheEntry} {plan : Plan} {base : NodeSet}
    {id : ListenerId} {store : Store} (h : entry.Current plan base id store)
    (houtdates : ¬Outdates (store.feed.events id) entry.documents) (feed : Feed) :
    entry.Current plan base id { store with feed } := by
  obtain ⟨seen, hresult, hdocuments, hreflects⟩ := h
  exact ⟨seen, hresult, hdocuments, .inr (hreflects.same houtdates)⟩

namespace Step

variable {step : Step} {store : Store} {id : ListenerId}

/-- What is kept after an event was kept before and does not depend on its document. -/
theorem applyEvent_spec (step : Step) (event : ChangeEvent) :
    (step.applyEvent event).listener = step.listener ∧
      (∀ p ∈ (step.applyEvent event).preloaded,
        p ∈ step.preloaded ∧ ¬Outdates [event] p.docs) ∧
      ∀ entry ∈ (step.applyEvent event).cached,
        entry ∈ step.cached ∧ ¬Outdates [event] entry.documents := by
  have houtdates {docs : DocumentSet} (hkind : event.kind = .other)
      (hdoc : !docs.contains event.document) : ¬Outdates [event] docs := by
    rintro ⟨e, he, hadded | hmem⟩
    · rw [List.mem_singleton.mp he, hkind] at hadded
      cases hadded
    · rw [List.mem_singleton.mp he, ← DocumentSet.contains_iff] at hmem
      rw [hmem] at hdoc
      cases hdoc
  rw [applyEvent]
  split
  · refine ⟨rfl, fun p hp => ?_, fun entry hentry => ?_⟩
    · cases hp
    · cases hentry
  · next hkind =>
    refine ⟨rfl, fun p hp => ?_, fun entry hentry => ?_⟩
    · obtain ⟨hsome, hdoc⟩ := Option.filter_eq_some_iff.mp hp
      exact ⟨hsome, houtdates hkind hdoc⟩
    · obtain ⟨hsome, hdoc⟩ := Option.filter_eq_some_iff.mp hentry
      exact ⟨hsome, houtdates hkind hdoc⟩

theorem foldl_applyEvent_spec (step : Step) (events : List ChangeEvent) :
    (events.foldl applyEvent step).listener = step.listener ∧
      (∀ p ∈ (events.foldl applyEvent step).preloaded,
        p ∈ step.preloaded ∧ ¬Outdates events p.docs) ∧
      ∀ entry ∈ (events.foldl applyEvent step).cached,
        entry ∈ step.cached ∧ ¬Outdates events entry.documents := by
  induction events generalizing step with
  | nil => exact ⟨rfl, fun _ hp => ⟨hp, nofun⟩, fun _ hentry => ⟨hentry, nofun⟩⟩
  | cons event events ih =>
    obtain ⟨hlistener, hpreloaded, hcached⟩ := step.applyEvent_spec event
    obtain ⟨hlistener', hpreloaded', hcached'⟩ := ih (step.applyEvent event)
    have houtdates {docs : DocumentSet} (hfirst : ¬Outdates [event] docs)
        (hrest : ¬Outdates events docs) : ¬Outdates (event :: events) docs := by
      rintro ⟨e, he, hreason⟩
      obtain rfl | he := List.mem_cons.mp he
      · exact hfirst ⟨e, List.mem_singleton.mpr rfl, hreason⟩
      · exact hrest ⟨e, he, hreason⟩
    refine ⟨hlistener'.trans hlistener, fun p hp => ?_, fun entry hentry => ?_⟩
    · obtain ⟨hp, hrest⟩ := hpreloaded' p hp
      obtain ⟨hp, hfirst⟩ := hpreloaded p hp
      exact ⟨hp, houtdates hfirst hrest⟩
    · obtain ⟨hentry, hrest⟩ := hcached' entry hentry
      obtain ⟨hentry, hfirst⟩ := hcached entry hentry
      exact ⟨hentry, houtdates hfirst hrest⟩

/-- What does not depend on the document of an event is kept. -/
theorem applyEvent_kept (step : Step) (event : ChangeEvent) :
    (∀ p ∈ step.preloaded, ¬Outdates [event] p.docs → p ∈ (step.applyEvent event).preloaded) ∧
      ∀ entry ∈ step.cached, ¬Outdates [event] entry.documents →
        entry ∈ (step.applyEvent event).cached := by
  have hdepends {docs : DocumentSet} (h : ¬Outdates [event] docs) :
      event.kind ≠ .added ∧ docs.contains event.document = false := by
    refine ⟨fun hadded => h ⟨event, List.mem_cons_self, .inl hadded⟩, ?_⟩
    rw [← Bool.not_eq_true, DocumentSet.contains_iff]
    exact fun hdoc => h ⟨event, List.mem_cons_self, .inr hdoc⟩
  rw [applyEvent]
  split
  · next hkind => exact ⟨fun p _ h => absurd hkind (hdepends h).1,
      fun entry _ h => absurd hkind (hdepends h).1⟩
  · refine ⟨fun p hp h => Option.filter_eq_some_iff.mpr ⟨hp, ?_⟩,
      fun entry hentry h => Option.filter_eq_some_iff.mpr ⟨hentry, ?_⟩⟩
    · rw [(hdepends h).2]
      rfl
    · rw [CacheEntry.touches, (hdepends h).2]
      rfl

theorem foldl_applyEvent_kept (step : Step) (events : List ChangeEvent) :
    (∀ p ∈ step.preloaded, ¬Outdates events p.docs →
        p ∈ (events.foldl applyEvent step).preloaded) ∧
      ∀ entry ∈ step.cached, ¬Outdates events entry.documents →
        entry ∈ (events.foldl applyEvent step).cached := by
  induction events generalizing step with
  | nil => exact ⟨fun _ hp _ => hp, fun _ hentry _ => hentry⟩
  | cons event events ih =>
    obtain ⟨hpreloaded, hcached⟩ := step.applyEvent_kept event
    obtain ⟨hpreloaded', hcached'⟩ := ih (step.applyEvent event)
    have hfirst {docs : DocumentSet} (h : ¬Outdates (event :: events) docs) :
        ¬Outdates [event] docs :=
      fun hfirst => h (hfirst.mono fun _ he => List.mem_cons.mpr (.inl (List.mem_singleton.mp he)))
    have hrest {docs : DocumentSet} (h : ¬Outdates (event :: events) docs) :
        ¬Outdates events docs :=
      fun hrest => h (hrest.mono fun _ => List.mem_cons_of_mem _)
    exact ⟨fun p hp h => hpreloaded' p (hpreloaded p hp (hfirst h)) (hrest h),
      fun entry hentry h => hcached' entry (hcached entry hentry (hfirst h)) (hrest h)⟩

/-- An event that does not outdate an entry leaves it in place. -/
theorem cached_takeIn {id : ListenerId} {entry : CacheEntry} (hid : step.listener = some id)
    (hcached : step.cached = some entry)
    (houtdates : ¬Outdates (store.feed.events id) entry.documents) :
    (step.takeIn store).1.cached = some entry := by
  rw [takeIn, subscribe, hid]
  simp only [drain, hid]
  exact (step.foldl_applyEvent_kept _).2 entry hcached houtdates

/-- A step that listens is served by the feed; one that does not listen yet keeps nothing. What is
scanned ahead is current. -/
structure Attends (step : Step) (store : Store) : Prop where
  unheard : step.listener = none → step.IsBlank ∧ store.feed.Numbered
  served : ∀ id ∈ step.listener, store.feed.Serves id
  ready : ∀ id ∈ step.listener, ∀ p ∈ step.preloaded, p.Current step.plan id store

namespace Attends

theorem subscribe (h : step.Attends store) :
    (step.subscribe store).1.Attends (step.subscribe store).2 ∧
      (step.subscribe store).1.listener.isSome := by
  rw [Step.subscribe]
  split
  · next id hid => exact ⟨h, by rw [hid]; rfl⟩
  · next hnone =>
    obtain ⟨⟨-, hpreloaded⟩, hnumbered⟩ := h.unheard hnone
    refine ⟨⟨?_, ?_, ?_⟩, rfl⟩
    · rintro ⟨⟩
    · rintro id ⟨⟩
      exact hnumbered.subscribe
    · intro id _ p hp
      rw [show step.preloaded = none from hpreloaded] at hp
      cases hp

/-- Once the events are taken in, none waits, and what is kept was kept before. -/
theorem drain (h : step.Attends store) (hid : step.listener = some id) :
    (step.drain store).1.Attends (step.drain store).2 ∧
      (step.drain store).1.listener = some id ∧ (step.drain store).2.feed.events id = [] ∧
        ∀ entry ∈ (step.drain store).1.cached, entry ∈ step.cached ∧
          ∀ base, entry.Current step.plan base id store →
            entry.Current step.plan base id (step.drain store).2 := by
  obtain ⟨hlistener, hpreloaded, hcached⟩ :=
    step.foldl_applyEvent_spec (store.feed.drain id).1
  have hplan := step.foldl_applyEvent_plan (store.feed.drain id).1
  rw [hid] at hlistener
  rw [Step.drain, hid]
  refine ⟨⟨?_, ?_, ?_⟩, hlistener, Feed.events_drain _ _, fun entry hentry => ?_⟩
  · intro hnone
    rw [hlistener] at hnone
    cases hnone
  · intro other hother
    obtain rfl := Option.some_inj.mp (hlistener.symm.trans hother)
    exact (h.served id hid).drain
  · intro other hother p hp
    obtain rfl := Option.some_inj.mp (hlistener.symm.trans hother)
    obtain ⟨hp, houtdates⟩ := hpreloaded p hp
    rw [hplan]
    exact (h.ready id hid p hp).drained houtdates _
  · obtain ⟨hentry, houtdates⟩ := hcached entry hentry
    exact ⟨hentry, fun base hcurrent => hcurrent.drained houtdates _⟩

theorem takeIn (h : step.Attends store) :
    (step.takeIn store).1.Attends (step.takeIn store).2 ∧
      ∃ id, (step.takeIn store).1.listener = some id ∧
        (step.takeIn store).2.feed.events id = [] ∧
        ∀ entry ∈ (step.takeIn store).1.cached, entry ∈ step.cached ∧ step.listener = some id ∧
          ∀ base, entry.Current step.plan base id store →
            entry.Current step.plan base id (step.takeIn store).2 := by
  obtain ⟨hattends, hsome⟩ := h.subscribe
  obtain ⟨id, hid⟩ := Option.isSome_iff_exists.mp hsome
  obtain ⟨hdrained, hlistener, hevents, hkept⟩ := hattends.drain hid
  refine ⟨hdrained, id, hlistener, hevents, fun entry hentry => ?_⟩
  obtain ⟨hentry, hcurrent⟩ := hkept entry hentry
  rw [Step.takeIn]
  revert hentry hcurrent hid
  rw [Step.subscribe]
  split
  · next other hother =>
    intro hid hentry hcurrent
    exact ⟨hentry, hid, hcurrent⟩
  · next hnone =>
    intro _ hentry
    have hcached : step.cached = none := (h.unheard hnone).1.1
    rw [show _ = some entry from hentry] at hcached
    cases hcached

end Attends

/-! ## Responding -/

/-- An evaluation that has taken in the events answers from the cache, fails, or answers by a
search. -/
inductive Answers (step : Step) (input : InputSet) (id : ListenerId) (store : Store)
    (e : Evaluation) : Prop where
  | cached (entry : CacheEntry) (hentry : step.entryFor? input = some entry)
      (houtcome : e.outcome = step.plan.applyPredicates store input.nodes entry.result)
      (hstore : e.store = store)
  | failed (fault : StepError) (houtcome : e.outcome = .error fault)
  | found (hnone : step.entryFor? input = none) (seen : DocumentId → Store)
      (houtcome : e.outcome = step.plan.applyPredicates e.store e.input.nodes
        (step.plan.found input.nodes seen).deduplicate)
      (hseen : ∀ doc, Store.Leads id (seen doc) e.store)

/-- What an evaluation leaves behind. -/
structure Leaves (step : Step) (input : InputSet) (id : ListenerId) (store : Store)
    (e : Evaluation) : Prop where
  attends : e.step.Attends e.store
  listener : e.step.listener = some id
  plan : e.step.plan = step.plan
  leads : Store.Leads id store e.store
  identity : e.input.identity = input.identity
  left : e.input.nodes = input.nodes ∨
    e.input.nodes = input.nodes.sort ∧ step.plan.strategy = .pushdown
  cached : ∀ entry ∈ e.step.cached, entry ∈ step.cached ∨
    entry.isValid e.input ∧ entry.Current step.plan input.nodes id e.store

namespace Attends

theorem sound_searchFor (h : step.Attends store) (hid : step.listener = some id)
    (hdrained : store.feed.events id = []) (input : NodeSet) :
    step.plan.Sound input id store (step.searchFor input store) :=
  Plan.sound_search (h.served id hid) hdrained (h.ready id hid)

/-- A step that searched keeps listening, with what the search scanned. -/
theorem after_search (hid : step.listener = some id) {input : NodeSet} {search : Search}
    (hsound : step.plan.Sound input id store search) (cached : Option CacheEntry) :
    Attends { step with preloaded := search.preloaded, cached } search.store where
  unheard hnone := by
    rw [show step.listener = none from hnone] at hid
    cases hid
  served other hother := by
    obtain rfl := Option.some_inj.mp (hid.symm.trans hother)
    exact hsound.served
  ready other hother p hp := by
    obtain rfl := Option.some_inj.mp (hid.symm.trans hother)
    exact hsound.ready p hp

theorem respond (h : step.Attends store) (hid : step.listener = some id)
    (hdrained : store.feed.events id = []) (input : InputSet) :
    step.Leaves input id store (step.respond input store) ∧
      step.Answers input id store (step.respond input store) := by
  have hsound := h.sound_searchFor hid hdrained input.nodes
  rw [Step.respond]
  cases hentry : step.entryFor? input with
  | some entry =>
    exact ⟨⟨h, hid, rfl, .refl store, rfl, .inl rfl, fun _ hother => .inl hother⟩,
      .cached entry hentry rfl rfl⟩
  | none =>
    cases houtcome : (step.searchFor input.nodes store).outcome with
    | error fault =>
      refine ⟨⟨after_search hid hsound _, hid, rfl, hsound.leads, rfl, hsound.left,
        fun other hother => .inl ?_⟩, .failed fault ?_⟩
      · simpa only [houtcome] using hother
      show step.plan.answer (step.searchFor input.nodes store) = _
      rw [Plan.answer, houtcome]
    | ok result =>
      obtain ⟨seen, hresult, hseen⟩ := hsound.found result houtcome
      refine ⟨⟨after_search hid hsound _, hid, rfl, hsound.leads, rfl, hsound.left, ?_⟩,
        .found hentry seen ?_ hseen⟩
      · intro entry hkept
        simp only [houtcome] at hkept
        obtain rfl := Option.some_inj.mp hkept
        refine .inr ⟨?_, seen, congrArg StepResult.deduplicate hresult, rfl,
          Store.reflects_of_leads hseen⟩
        simp [CacheEntry.isValid, CacheEntry.ofResult]
      · show step.plan.answer (step.searchFor input.nodes store) = _
        rw [Plan.answer, houtcome, ← hresult]

/-- An evaluation takes in the events and then responds. -/
theorem eval (h : step.Attends store) (input : InputSet) :
    ∃ id, (step.takeIn store).2.feed.events id = [] ∧
      (∀ entry ∈ (step.takeIn store).1.cached, entry ∈ step.cached ∧ step.listener = some id ∧
        ∀ base, entry.Current step.plan base id store →
          entry.Current step.plan base id (step.takeIn store).2) ∧
      (step.takeIn store).1.Leaves input id (step.takeIn store).2 (step.eval input store) ∧
      (step.takeIn store).1.Answers input id (step.takeIn store).2 (step.eval input store) := by
  obtain ⟨hattends, id, hid, hevents, hkept⟩ := h.takeIn
  rw [eval_eq_respond]
  exact ⟨id, hevents, hkept, hattends.respond hid hevents input⟩

/-! ## Between evaluations -/

theorem withIndex (h : step.Attends store) (index : Index) : (step.withIndex index).Attends store :=
  ⟨h.unheard, h.served, h.ready⟩

theorem reset (h : step.Attends store) : step.reset.Attends store where
  unheard hnone := ⟨⟨rfl, rfl⟩, (h.unheard hnone).2⟩
  served := h.served
  ready id _ p hp := by cases hp

/-- A step attends to changes of the store that it is told of. -/
theorem after (h : step.Attends store) {later : Store}
    (hnumbered : store.feed.Numbered → later.feed.Numbered)
    (hleads : ∀ id, store.feed.Serves id → later.feed.Serves id ∧ Store.Leads id store later) :
    step.Attends later where
  unheard hnone := ⟨(h.unheard hnone).1, hnumbered (h.unheard hnone).2⟩
  served id hid := (hleads id (h.served id hid)).1
  ready id hid p hp := by
    exact (h.ready id hid p hp).leads (hleads id (h.served id hid)).2

/-- An evaluation for one node keeps what is cached, unless events say otherwise. -/
theorem evalItem (h : step.Attends store) (node : NodeRef) :
    (step.evalItem node store).2.1.plan = step.plan ∧
      (step.evalItem node store).2.1.Attends (step.evalItem node store).2.2 ∧
      ∃ id, (step.evalItem node store).2.1.listener = some id ∧
        ∀ entry ∈ (step.evalItem node store).2.1.cached, entry ∈ step.cached ∧
          step.listener = some id ∧ ∀ base, entry.Current step.plan base id store →
            entry.Current step.plan base id (step.evalItem node store).2.2 := by
  obtain ⟨hattends, id, hid, hevents, hkept⟩ := h.takeIn
  have hsound := hattends.sound_searchFor hid hevents (.ofList [node])
  rw [evalItem_eq]
  refine ⟨step.takeIn_plan store, after_search hid hsound _, id, hid, fun entry hentry => ?_⟩
  obtain ⟨hentry, hlistener, hcurrent⟩ := hkept entry hentry
  refine ⟨hentry, hlistener, fun base hbase => ?_⟩
  exact (hcurrent base hbase).leads hsound.leads

/-- Asking a step what it keeps makes it take in the events, if it listens. -/
theorem drained (h : step.Attends store) :
    (step.drain store).1.Attends (step.drain store).2 ∧
      ∀ id ∈ (step.drain store).1.listener, ∀ entry ∈ (step.drain store).1.cached,
        entry ∈ step.cached ∧ step.listener = some id ∧
          ∀ base, entry.Current step.plan base id store →
            entry.Current step.plan base id (step.drain store).2 := by
  cases hlistener : step.listener with
  | none =>
    rw [Step.drain, hlistener]
    refine ⟨h, fun id hid => ?_⟩
    rw [hlistener] at hid
    cases hid
  | some id =>
    obtain ⟨hattends, hid, -, hkept⟩ := h.drain hlistener
    refine ⟨hattends, fun other hother entry hentry => ?_⟩
    obtain rfl := Option.some_inj.mp (hid.symm.trans hother)
    obtain ⟨hentry, hcurrent⟩ := hkept entry hentry
    exact ⟨hentry, rfl, hcurrent⟩

end Attends

end Step

end TreeAxes
