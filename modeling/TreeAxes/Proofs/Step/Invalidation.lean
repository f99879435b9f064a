import TreeAxes.Proofs.Step.Community

/-!
# Invalidation

What a step keeps after an evaluation goes when a document is added or one that it depends on
changes, and not before. The step may hear of this at any time: the events that it took in and those
that still wait for it are together the ones that were announced since the evaluation.
-/

namespace TreeAxes

namespace Step

variable {step : Step} {events : List ChangeEvent}

/-- An evaluation stores an entry if none was there that answers for its input. -/
structure Stores (step : Step) (input : InputSet) (store : Store) (entry : CacheEntry) : Prop where
  missed : (step.takeIn store).1.entryFor? input = none
  cached : (step.eval input store).step.cached = some entry
  valid : entry.isValid input

theorem isSome_cached_foldl {entry : CacheEntry} (h : step.cached = some entry) :
    (events.foldl applyEvent step).cached.isSome ↔ ¬Outdates events entry.documents := by
  rw [Option.isSome_iff_exists]
  constructor
  · rintro ⟨kept, hkept⟩
    obtain ⟨hcached, houtdates⟩ := (step.foldl_applyEvent_spec events).2.2 kept hkept
    obtain rfl := Option.some_inj.mp (h.symm.trans hcached)
    exact houtdates
  · intro houtdates
    exact ⟨entry, (step.foldl_applyEvent_kept events).2 entry h houtdates⟩

theorem isSome_preloaded_foldl {ready : Preloaded} (h : step.preloaded = some ready) :
    (events.foldl applyEvent step).preloaded.isSome ↔ ¬Outdates events ready.docs := by
  rw [Option.isSome_iff_exists]
  constructor
  · rintro ⟨kept, hkept⟩
    obtain ⟨hpreloaded, houtdates⟩ := (step.foldl_applyEvent_spec events).2.1 kept hkept
    obtain rfl := Option.some_inj.mp (h.symm.trans hpreloaded)
    exact houtdates
  · intro houtdates
    exact ⟨ready, (step.foldl_applyEvent_kept events).1 ready h houtdates⟩

/-- The scope of an entry are the documents of its result and those that were searched for it. -/
theorem Stores.documents_eq {input : InputSet} {store : Store} {entry : CacheEntry}
    (h : step.Stores input store entry) :
    entry.documents = entry.result.documents.union (step.plan.searched input.nodes) := by
  have hcached := h.cached
  rw [eval_eq_respond, respond, h.missed] at hcached
  simp only at hcached
  split at hcached
  · have hanswers : (step.takeIn store).1.entryFor? input = some entry :=
      Option.filter_eq_some_iff.mpr ⟨hcached, h.valid⟩
    cases h.missed.symm.trans hanswers
  · obtain rfl := Option.some_inj.mp hcached
    rw [takeIn_plan]
    rfl

/-- An entry that answers makes a scan unnecessary. -/
theorem scans_eval_of_cached {input : InputSet} {store : Store} {entry : CacheEntry}
    (hcached : (step.takeIn store).1.cached = some entry) (hvalid : entry.isValid input) :
    (step.eval input store).store.scans = store.scans := by
  have hentry : (step.takeIn store).1.entryFor? input = some entry :=
    Option.filter_eq_some_iff.mpr ⟨hcached, hvalid⟩
  obtain ⟨feed, hstore⟩ := step.takeIn_store store
  rw [eval_eq_respond, respond, hentry]
  show (step.takeIn store).2.scans = store.scans
  rw [hstore]

end Step

namespace Community

variable {c : Community} {place : Nat} {own : Member}

/-- The step is only asked what it keeps. -/
def Use.Inspects : Use → Prop
  | hasCached | hasPreloaded => True
  | eval _ _ | evalItem _ _ | reset | drop => False

/-- The step at a place is neither evaluated nor reset nor dropped. -/
def Action.Spares (place : Nat) : Action → Prop
  | use other purpose => other = place → purpose.Inspects
  | _ => True

/-! ## Ledgers over time -/

theorem announcedAll_spec (l : Ledger) (events : List ChangeEvent) :
    (l.announcedAll events).members = l.members ∧
      (l.announcedAll events).log = l.log ++ events := by
  induction events generalizing l with
  | nil => exact ⟨rfl, (List.append_nil _).symm⟩
  | cons event events ih =>
    obtain ⟨hmembers, hlog⟩ := ih (l.announced event)
    exact ⟨hmembers, hlog.trans (List.append_assoc _ _ _)⟩

theorem log_useAt (c : Community) (place : Nat) (own : Member) (use : Use) :
    c.log <+: (c.useAt place own use).log := by
  cases use with
  | eval input index =>
    exact ⟨_, (announcedAll_spec (c.attend place own _ _) _).2.symm⟩
  | evalItem node index =>
    exact ⟨_, (announcedAll_spec (c.attend place own _ _) _).2.symm⟩
  | hasCached | hasPreloaded | reset | drop => exact List.prefix_rfl

/-- What was announced stays on the record. -/
theorem log_perform (c : Community) (action : Action) : c.log <+: (c.perform action).log := by
  cases action with
  | change change => exact ⟨_, (announcedAll_spec c.toLedger _).2.symm⟩
  | failNextScan | subscribe reaction => exact List.prefix_rfl
  | withdraw turn =>
    rw [perform]
    split <;> exact List.prefix_rfl
  | build plan =>
    rw [perform]
    split <;> exact List.prefix_rfl
  | use place use =>
    rw [perform]
    split
    · exact c.log_useAt place _ use
    · exact List.prefix_rfl
    · exact List.prefix_rfl

theorem log_run (c : Community) (actions : List Action) : c.log <+: (c.run actions).log := by
  induction actions generalizing c with
  | nil => exact List.prefix_rfl
  | cons action actions ih => exact (c.log_perform action).trans (ih _)

/-- What is done with one step leaves the others as they are. -/
theorem members_useAt {other : Nat} (hne : other ≠ place) (c : Community) (m : Member) (use : Use) :
    (c.useAt other m use).members[place]? = c.members[place]? := by
  cases use with
  | eval input index =>
    exact (congrArg (·[place]?) (announcedAll_spec _ _).1).trans (List.getElem?_set_ne hne)
  | evalItem node index =>
    exact (congrArg (·[place]?) (announcedAll_spec _ _).1).trans (List.getElem?_set_ne hne)
  | hasCached | hasPreloaded | reset | drop => exact List.getElem?_set_ne hne

/-! ## What a step keeps -/

/-- The step at a place forgot nothing but what the events that it took in outdate. -/
def Keeps (c : Community) (place : Nat) (own : Member) : Prop :=
  ∃ (m : Member) (events : List ChangeEvent), c.members[place]? = some (some m) ∧
    m.step = events.foldl Step.applyEvent own.step ∧ m.heard = own.heard ++ events ∧
      m.since = own.since

theorem Keeps.perform (h : c.Keeps place own) {action : Action} (hspares : action.Spares place) :
    (c.perform action).Keeps place own := by
  have hsame : (c.perform action).members[place]? = c.members[place]? →
      (c.perform action).Keeps place own := by
    intro heq
    obtain ⟨m, events, hm, hrest⟩ := h
    exact ⟨m, events, heq.trans hm, hrest⟩
  cases action with
  | change change => exact hsame (congrArg (·[place]?) (announcedAll_spec _ _).1)
  | failNextScan | subscribe reaction => exact hsame rfl
  | withdraw turn =>
    refine hsame ?_
    rw [Community.perform]
    split <;> rfl
  | build plan =>
    obtain ⟨m, events, hm, hrest⟩ := h
    refine ⟨m, events, ?_, hrest⟩
    rw [Community.perform]
    split
    · exact hm
    · exact (List.getElem?_append_left (List.getElem?_eq_some_iff.mp hm).1).trans hm
  | use other use =>
    by_cases hplace : other = place
    · obtain rfl := hplace
      obtain ⟨m, events, hm, hstep, hheard, hsince⟩ := h
      have hinspected : (c.inspect other m (m.step.drain c.store).1
          (m.step.drain c.store).2).Keeps other own := by
        refine ⟨⟨(m.step.drain c.store).1, m.heard ++ m.step.drained c.store, m.since⟩,
          events ++ m.step.drained c.store, ?_, ?_, ?_, hsince⟩
        · exact (Ledger.Balances.getElem?_settle hm _ other).trans (if_pos rfl)
        · rw [List.foldl_append, ← hstep]
          exact m.step.drain_step c.store
        · show m.heard ++ _ = _
          rw [hheard, List.append_assoc]
      have hinspects := hspares rfl
      rw [Community.perform, hm]
      cases use with
      | hasCached | hasPreloaded => exact hinspected
      | eval input index | evalItem node index | reset | drop => cases hinspects
    · refine hsame ?_
      rw [Community.perform]
      split
      · exact members_useAt hplace c _ use
      · rfl
      · rfl

theorem Keeps.run (h : c.Keeps place own) {actions : List Action}
    (hspares : ∀ action ∈ actions, action.Spares place) : (c.run actions).Keeps place own := by
  induction actions generalizing c with
  | nil => exact h
  | cons action actions ih =>
    obtain ⟨hfirst, hrest⟩ := List.forall_mem_cons.mp hspares
    exact ih (h.perform hfirst) hrest

/-- What an evaluation leaves. -/
theorem members_eval (hown : c.members[place]? = some (some own)) (input : InputSet)
    (index : Index) :
    let step := own.step.withIndex index
    (c.perform (.use place (.eval input index))).members[place]? =
      some (some ⟨(step.eval input c.store).step, own.heard ++ step.takenIn c.store,
        own.since.or (some c.log.length)⟩) := by
  intro step
  rw [perform, hown]
  refine (congrArg (·[place]?) (announcedAll_spec _ _).1).trans ?_
  exact (Ledger.Balances.getElem?_settle hown _ place).trans (if_pos rfl)

/-- An evaluation takes in everything that was announced before. -/
theorem Balanced.heard_takenIn (h : c.Balanced) (hown : c.members[place]? = some (some own))
    {step : Step} (hstep : step.listener = own.step.listener) :
    ∃ first ≤ c.log.length, own.since.or (some c.log.length) = some first ∧
      own.heard ++ step.takenIn c.store = c.log.drop first := by
  cases h.balances.members place own hown with
  | unheard hsince hlistener hheard =>
    obtain ⟨-, htakenIn, -⟩ := @Step.takeIn_of_none _ c.store (hstep.trans hlistener)
    refine ⟨c.log.length, Nat.le_refl _, by rw [hsince]; rfl, ?_⟩
    rw [hheard, htakenIn, List.nil_append, List.drop_length]
    exact h.balances.ordered.events_subscribe .stay
  | listening first id hsince hlistener htaken htells hfirst hheard =>
    obtain ⟨-, htakenIn, -⟩ := @Step.takeIn_of_some _ c.store _ (hstep.trans hlistener)
    exact ⟨first, hfirst, by rw [hsince]; rfl, htakenIn ▸ hheard⟩

/-- After an evaluation the step listens. What it took in since and what still waits for it is what
was announced since. -/
theorem exists_member_after_eval {before later : List Action} {input : InputSet} {index : Index}
    (hown : (start.run before).members[place]? = some (some own))
    (hspares : ∀ action ∈ later, action.Spares place) :
    let c := start.run before
    let step := own.step.withIndex index
    let after := (c.perform (.use place (.eval input index))).run later
    ∃ (m : Member) (events : List ChangeEvent) (id : ListenerId),
      after.members[place]? = some (some m) ∧
      m.step = events.foldl Step.applyEvent (step.eval input c.store).step ∧
      m.step.listener = some id ∧
      events ++ after.store.feed.events id = after.log.drop c.log.length := by
  intro c step after
  have hbalanced : c.Balanced := Balanced.start.run before
  obtain ⟨first, hfirst, hsince, hheard⟩ :=
    hbalanced.heard_takenIn hown (show step.listener = own.step.listener from rfl)
  let left : Member := ⟨(step.eval input c.store).step, own.heard ++ step.takenIn c.store,
    own.since.or (some c.log.length)⟩
  have hleft : left.heard = c.log.drop first := hheard
  have hkeeps : (c.perform (.use place (.eval input index))).Keeps place left :=
    ⟨left, [], members_eval hown input index, rfl, (List.append_nil _).symm, rfl⟩
  obtain ⟨m, events, hm, hstep, hheard', hsince'⟩ := hkeeps.run hspares
  have hafter : after.Balanced := (hbalanced.perform _).run later
  obtain ⟨id, hid⟩ := hafter.listens hm (hsince'.trans hsince)
  refine ⟨m, events, id, hm, hstep, hid, ?_⟩
  obtain ⟨more, hlog⟩ : c.log <+: after.log := (c.log_perform _).trans (log_run _ later)
  -- Both sides go on from what was announced up to the evaluation.
  have hwaiting : c.log.drop first ++ (events ++ after.store.feed.events id) =
      c.log.drop first ++ more := by
    have hwaiting := hafter.waiting hm (hsince'.trans hsince)
    rw [Step.drained_of_some hid, hheard', hleft, List.append_assoc] at hwaiting
    rw [hwaiting, ← hlog, List.drop_append_of_le_length hfirst]
  rw [List.append_cancel_left hwaiting, ← hlog, List.drop_left]

/-- After an evaluation of a step others act and the step is asked what it keeps. It has its result
exactly if no document was added and none in the scope of the result was changed since it took in
events for the evaluation, and likewise its nodes scanned ahead. While it has the result, it needs
no scan to answer for the same unchanged input. -/
theorem invalidation_exact {before later : List Action} {place : Nat} {own : Member}
    {input : InputSet} {index : Index}
    (hown : (start.run before).members[place]? = some (some own))
    (hspares : ∀ action ∈ later, action.Spares place) :
    let c := start.run before
    let step := own.step.withIndex index
    let after := (c.perform (.use place (.eval input index))).run later
    let since := after.log.drop c.log.length
    ∃ m, after.members[place]? = some (some m) ∧
      (∀ entry, step.Stores input c.store entry →
        entry.documents = entry.result.documents.union (step.plan.searched input.nodes) ∧
        ((m.step.hasCached after.store).1 ↔ ¬Outdates since entry.documents) ∧
        ((m.step.hasCached after.store).1 → ∀ (again : InputSet) (other : Index),
          again.identity = input.identity → again.nodes.revision = input.nodes.revision →
            ((m.step.withIndex other).eval again after.store).store.scans = after.store.scans)) ∧
      ∀ ready, (step.eval input c.store).step.preloaded = some ready →
        ((m.step.hasPreloaded after.store).1 ↔ ¬Outdates since ready.docs) := by
  intro c step after since
  obtain ⟨m, events, id, hm, hstep, hid, hevents⟩ := exists_member_after_eval hown hspares
  have hdrain : (m.step.drain after.store).1 =
      since.foldl Step.applyEvent (step.eval input c.store).step := by
    rw [Step.drain_step, Step.drained_of_some hid, hstep, ← List.foldl_append]
    exact congrArg (List.foldl Step.applyEvent _) hevents
  refine ⟨m, hm, fun entry hstores => ?_, fun ready hready => ?_⟩
  · have hhas : (m.step.hasCached after.store).1 ↔ ¬Outdates since entry.documents := by
      show (m.step.drain after.store).1.cached.isSome ↔ _
      rw [hdrain]
      exact Step.isSome_cached_foldl hstores.cached
    refine ⟨hstores.documents_eq, hhas, fun hkept again other hsame hrevision => ?_⟩
    have houtdates : ¬Outdates (events ++ after.store.feed.events id) entry.documents :=
      hevents ▸ hhas.mp hkept
    have hcached : m.step.cached = some entry := by
      rw [hstep]
      refine (Step.foldl_applyEvent_kept _ events).2 entry hstores.cached fun h => ?_
      exact houtdates (h.mono fun _ => List.mem_append_left _)
    have htaken : ((m.step.withIndex other).takeIn after.store).1.cached = some entry :=
      Step.cached_takeIn hid hcached fun h =>
        houtdates (h.mono fun _ => List.mem_append_right _)
    obtain ⟨hidentity, hentry⟩ := CacheEntry.isValid_iff.mp hstores.valid
    exact Step.scans_eval_of_cached htaken (CacheEntry.isValid_iff.mpr
      ⟨hidentity.trans hsame.symm, hentry.trans hrevision.symm⟩)
  · show (m.step.drain after.store).1.preloaded.isSome ↔ _
    rw [hdrain]
    exact Step.isSome_preloaded_foldl hready

/-- A tree with a root and one node below it. -/
def sprout : Tree := .node (.element "r") [] [.leaf (.element "a")]

/-- A step that scans ahead for a name that does not occur yet. -/
def scout : Plan := { axis := .child, test := .namedElement (.ofLocal "b"), preload := true }

/-- Two documents, a listener and two steps. -/
def gathering : List Action :=
  [.change (.add "one" sprout), .change (.add "two" sprout), .subscribe .recruit, .build scout,
    .build scout]

/-- The root of the first document. -/
def firstRoot : InputSet := ⟨⟨0⟩, .ofList ((start.run gathering).store.named ⟨1⟩ "r")⟩

/-- The other step is evaluated and some documents are touched. -/
def touches (docs : List DocumentId) : List Action :=
  .use 1 (.eval firstRoot .quiet) :: docs.map fun doc => .change (.touch doc)

/-- What becomes of the community if the first step answers for the first document before that. -/
def afterTouches (docs : List DocumentId) : Community :=
  ((start.run gathering).perform (.use 0 (.eval firstRoot .quiet))).run (touches docs)

/-- The first step keeps what it has until the document that it searched is touched. -/
theorem invalidation_exact_touches :
    (∃ m, (afterTouches [⟨2⟩]).members[0]? = some (some m) ∧
      (m.step.hasCached (afterTouches [⟨2⟩]).store).1 ∧
      (m.step.hasPreloaded (afterTouches [⟨2⟩]).store).1) ∧
    ∃ m, (afterTouches [⟨2⟩, ⟨1⟩]).members[0]? = some (some m) ∧
      ¬(m.step.hasCached (afterTouches [⟨2⟩, ⟨1⟩]).store).1 ∧
      ¬(m.step.hasPreloaded (afterTouches [⟨2⟩, ⟨1⟩]).store).1 := by
  have hown : (start.run gathering).members[0]? = some (some ⟨scout.fresh, [], none⟩) := rfl
  have hspares : ∀ docs, ∀ action ∈ touches docs, action.Spares 0 := by
    intro docs action haction
    obtain rfl | haction := List.mem_cons.mp haction
    · exact nofun
    · obtain ⟨doc, -, rfl⟩ := List.mem_map.mp haction
      trivial
  let step := scout.fresh.withIndex .quiet
  let store := (start.run gathering).store
  obtain ⟨entry, hcached, hentry⟩ : ∃ entry, (step.eval firstRoot store).step.cached = some entry ∧
      (entry.isValid firstRoot, entry.documents.ids) = (true, [⟨1⟩]) :=
    Option.map_eq_some_iff.mp (by decide +kernel)
  obtain ⟨hvalid, hscope⟩ := Prod.mk.inj hentry
  have hstores : step.Stores firstRoot store entry := ⟨rfl, hcached, hvalid⟩
  obtain ⟨ready, hready, hdocs⟩ : ∃ ready,
      (step.eval firstRoot store).step.preloaded = some ready ∧ ready.docs.ids = [⟨1⟩] :=
    Option.map_eq_some_iff.mp (by decide +kernel)
  constructor
  · obtain ⟨m, hm, hanswers, hahead⟩ :=
      @invalidation_exact gathering _ 0 _ firstRoot .quiet hown (hspares [⟨2⟩])
    have hsince : (afterTouches [⟨2⟩]).log.drop (start.run gathering).log.length =
        [⟨⟨2⟩, .other⟩] := by decide +kernel
    have hkept (docs : DocumentSet) (hids : docs.ids = [⟨1⟩]) :
        ¬Outdates ((afterTouches [⟨2⟩]).log.drop (start.run gathering).log.length) docs := by
      rw [Outdates, hsince, hids]
      decide
    exact ⟨m, hm, (hanswers entry hstores).2.1.mpr (hkept _ hscope),
      (hahead ready hready).mpr (hkept _ hdocs)⟩
  · obtain ⟨m, hm, hanswers, hahead⟩ :=
      @invalidation_exact gathering _ 0 _ firstRoot .quiet hown (hspares [⟨2⟩, ⟨1⟩])
    have hsince : (afterTouches [⟨2⟩, ⟨1⟩]).log.drop (start.run gathering).log.length =
        [⟨⟨2⟩, .other⟩, ⟨⟨1⟩, .other⟩] := by decide +kernel
    have hlost (docs : DocumentSet) (hids : docs.ids = [⟨1⟩]) :
        Outdates ((afterTouches [⟨2⟩, ⟨1⟩]).log.drop (start.run gathering).log.length) docs := by
      rw [Outdates, hsince, hids]
      decide
    exact ⟨m, hm, fun h => (hanswers entry hstores).2.1.mp h (hlost _ hscope),
      fun h => (hahead ready hready).mp h (hlost _ hdocs)⟩

end Community

end TreeAxes
