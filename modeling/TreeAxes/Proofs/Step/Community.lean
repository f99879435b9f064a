import TreeAxes.Proofs.Store.Changes
import TreeAxes.Proofs.Step.Ledger
import TreeAxes.Proofs.Step.Validity

/-!
# Communities

A community is a store with steps that are evaluated over it and others who listen to it. They act
in any order, and the ledger keeps account of them by what each operation returns. The feed of the
store balances with the ledger, whatever happens.
-/

namespace TreeAxes

/-! ## What evaluations leave -/

/-- A search counts its scan, if it makes one; nothing but the changes that come with the scan
happens to the store. -/
theorem Plan.store_search (plan : Plan) (input : NodeSet) (preloaded : Option Preloaded)
    (store : Store) :
    let search := plan.search input (plan.searched input) preloaded store
    ∃ scans failNext, search.store = Store.applyAll { store with scans, failNext }
      (plan.index.made (plan.searched input) store search.store) := by
  intro search
  have hunscanned : search.store = store → ∃ scans failNext, search.store =
      Store.applyAll { store with scans, failNext }
        (plan.index.made (plan.searched input) store search.store) := by
    intro hstore
    refine ⟨store.scans, store.failNext, ?_⟩
    rw [hstore, Index.made, if_pos (.inl rfl)]
    rfl
  have hscanned : ∀ (request : ScanRequest) (outcome : Except IndexError NodeSet),
      plan.index.scan request (plan.searched input) store = (outcome, search.store) →
        ∃ scans failNext, search.store = Store.applyAll { store with scans, failNext }
          (plan.index.made (plan.searched input) store search.store) := by
    intro request outcome hscan
    obtain ⟨-, failNext, hstore⟩ := plan.index.store_scan request (plan.searched input) store
    rw [hscan] at hstore
    exact ⟨_, failNext, hstore⟩
  have hgoes := plan.goes_search input preloaded store
  rw [show plan.search input (plan.searched input) preloaded store = search from rfl] at hgoes
  generalize search = search at *
  cases hgoes with
  | unscanned result hfound => exact hunscanned rfl
  | unsupported haxis => exact hunscanned rfl
  | pushed name selector nodes after hstrategy hscan hfound => exact hscanned _ _ hscan
  | atHand name relation ready hname hready hids hfound => exact hunscanned rfl
  | joined name relation nodes after hname hscan hfound => exact hscanned _ _ hscan
  | failed request fault after left kept hscan hleft hkept => exact hscanned _ _ hscan

namespace Step

/-- The events that a step takes out of its mailbox. -/
def drained (step : Step) (store : Store) : List ChangeEvent :=
  match step.listener with
  | none => []
  | some id => (store.feed.drain id).1

/-- The events that a step takes in when it is evaluated. -/
def takenIn (step : Step) (store : Store) : List ChangeEvent :=
  (step.subscribe store).1.drained (step.subscribe store).2

variable {step : Step} {store : Store} {id : ListenerId}

theorem drain_step (step : Step) (store : Store) :
    (step.drain store).1 = (step.drained store).foldl applyEvent step := by
  rw [drain, drained]
  cases step.listener <;> rfl

theorem listener_drain (step : Step) (store : Store) :
    (step.drain store).1.listener = step.listener := by
  rw [drain_step]
  exact (step.foldl_applyEvent_spec _).1

theorem drained_of_some (h : step.listener = some id) :
    step.drained store = store.feed.events id := by
  rw [drained, h]
  rfl

/-- A step that listens drains its mailbox when it is evaluated. -/
theorem takeIn_of_some (h : step.listener = some id) :
    step.takeIn store = step.drain store ∧ step.takenIn store = store.feed.events id ∧
      (step.takeIn store).2.feed = (store.feed.drain id).2 := by
  have hsubscribe : step.subscribe store = (step, store) := by rw [subscribe, h]
  rw [takeIn, takenIn, hsubscribe, drained, drain, h]
  exact ⟨rfl, rfl, rfl⟩

/-- Otherwise it registers first. -/
theorem takeIn_of_none (h : step.listener = none) :
    (step.takeIn store).1.listener = some ⟨store.feed.registered⟩ ∧
      step.takenIn store = (store.feed.subscribe .stay).2.events ⟨store.feed.registered⟩ ∧
      (step.takeIn store).2.feed =
        ((store.feed.subscribe .stay).2.drain ⟨store.feed.registered⟩).2 := by
  have hsubscribe : step.subscribe store =
      ({ step with listener := some ⟨store.feed.registered⟩ },
        { store with feed := (store.feed.subscribe .stay).2 }) := by
    rw [subscribe, h]
    rfl
  rw [takeIn, takenIn, hsubscribe]
  exact ⟨listener_drain _ _, rfl, rfl⟩

/-- What a step and a store become by an evaluation for some nodes. -/
structure Proceeds (step : Step) (input : NodeSet) (store : Store) (left : Step) (after : Store) :
    Prop where
  listener : left.listener = (step.takeIn store).1.listener
  store : ∃ scans failNext, after =
    Store.applyAll { (step.takeIn store).2 with scans, failNext }
      (step.plan.index.made (step.plan.searched input) store after)

theorem proceeds_search (step : Step) (input : NodeSet) (store : Store) {left : Step}
    (hleft : left.listener = (step.takeIn store).1.listener) :
    step.Proceeds input store left
      ((step.takeIn store).1.searchFor input (step.takeIn store).2).store := by
  obtain ⟨feed, hstore⟩ := step.takeIn_store store
  obtain ⟨scans, failNext, hsearch⟩ := (step.takeIn store).1.plan.store_search input
    (step.takeIn store).1.preloaded (step.takeIn store).2
  refine ⟨hleft, scans, failNext, ?_⟩
  rw [searchFor]
  refine hsearch.trans ?_
  rw [takeIn_plan, Index.made, Index.made, hstore]

theorem proceeds_eval (step : Step) (input : InputSet) (store : Store) :
    step.Proceeds input.nodes store (step.eval input store).step (step.eval input store).store := by
  rw [eval_eq_respond, respond]
  cases (step.takeIn store).1.entryFor? input with
  | none => exact step.proceeds_search input.nodes store rfl
  | some entry =>
    obtain ⟨feed, hstore⟩ := step.takeIn_store store
    refine ⟨rfl, store.scans, store.failNext, ?_⟩
    show (step.takeIn store).2 = Store.applyAll _
      (Index.made _ _ store (step.takeIn store).2)
    rw [hstore, Index.made, if_pos (.inl rfl)]
    rfl

theorem proceeds_evalItem (step : Step) (node : NodeRef) (store : Store) :
    step.Proceeds (.ofList [node]) store (step.evalItem node store).2.1
      (step.evalItem node store).2.2 := by
  rw [evalItem_eq]
  exact step.proceeds_search (.ofList [node]) store rfl

/-- After an evaluation the feed has announced what is due for the changes around its scan. -/
theorem Proceeds.feed {input : NodeSet} {left : Step} {after : Store}
    (h : step.Proceeds input store left after) (hsound : store.Sound) :
    after.Sound ∧ after.feed = (step.takeIn store).2.feed.announceAll (store.log
      ((step.plan.index.made (step.plan.searched input) store after).map .change)) := by
  obtain ⟨scans, failNext, hafter⟩ := h.store
  obtain ⟨feed, hstore⟩ := step.takeIn_store store
  let start : Store := { (step.takeIn store).2 with scans, failNext }
  have hdocuments : start.documents = store.documents := by
    show (step.takeIn store).2.documents = _
    rw [hstore]
  have hadditions : start.additions = store.additions := by
    show (step.takeIn store).2.additions = _
    rw [hstore]
  have hstart : start.Sound := hsound.congr hdocuments (Nat.le_of_eq hadditions.symm)
  have hlog := Store.log_congr hdocuments hadditions
    (step.plan.index.made (step.plan.searched input) store after)
  refine ⟨hafter ▸ hstart.applyAll _, ?_⟩
  rw [← hlog]
  exact (congrArg Store.feed hafter).trans (hstart.feed_applyAll _)

end Step

/-! ## Actions -/

structure Community extends Ledger where
  store : Store

namespace Ledger

/-- A step took in events to be evaluated. The first time, it was given an identifier. -/
def attend (l : Ledger) (place : Nat) (own : Member) (left : Step) (events : List ChangeEvent) :
    Ledger :=
  { l with
    members := l.members.set place
      (some ⟨left, own.heard ++ events, own.since.or (some l.log.length)⟩)
    taken := if own.since.isNone then l.taken ++ left.listener.toList else l.taken }

variable {l : Ledger} {store : Store} {own : Member} {place : Nat}

theorem Balances.attend (h : l.Balances store.feed) (hm : l.members[place]? = some (some own))
    {step left : Step} (hstep : step.listener = own.step.listener)
    (hleft : left.listener = (step.takeIn store).1.listener) :
    (l.attend place own left (step.takenIn store)).Balances (step.takeIn store).2.feed := by
  cases hlistener : own.step.listener with
  | some id =>
    obtain ⟨htakeIn, hevents, hfeed⟩ := @Step.takeIn_of_some _ store _ (hstep.trans hlistener)
    have hleft : left.listener = some id := by
      rw [hleft, htakeIn, Step.listener_drain, hstep, hlistener]
    obtain ⟨first, hsince⟩ := (h.members place own hm).since_eq_some hlistener
    have hdrain := h.drain hm hlistener hleft
    rw [Ledger.attend, hevents, hfeed, hsince]
    rw [hsince] at hdrain
    exact hdrain
  | none =>
    obtain ⟨hid, hevents, hfeed⟩ := @Step.takeIn_of_none _ store (hstep.trans hlistener)
    obtain ⟨hsince, -⟩ := (h.members place own hm).since_eq_none hlistener
    have henroll := h.enroll hm hlistener (hleft.trans hid)
    have hplace := getElem?_settle hm (some ⟨left, own.heard, some l.log.length⟩) place
    rw [if_pos rfl] at hplace
    have hdrain := henroll.drain hplace (hleft.trans hid) (hleft.trans hid)
    rw [Ledger.attend, hevents, hfeed, hsince, hleft.trans hid]
    rw [Ledger.settle, Ledger.settle, List.set_set] at hdrain
    exact hdrain

end Ledger

namespace Community

/-- What is done with a step. -/
inductive Use where
  /-- Evaluates the step; the index makes changes to the store around its scan. -/
  | eval (input : InputSet) (index : Index)
  | evalItem (node : NodeRef) (index : Index)
  | hasCached
  | hasPreloaded
  | reset
  | drop

inductive Action where
  | change (change : Store.Change)
  | failNextScan
  /-- Someone registers a listener. -/
  | subscribe (reaction : Reaction)
  /-- Someone takes out the listener of an identifier that was given to others, by its turn. -/
  | withdraw (turn : Nat)
  | build (plan : Plan)
  | use (place : Nat) (use : Use)

def start : Community := { Ledger.empty with store := .empty }

/-- A step became another one by an evaluation for some nodes. -/
def evaluate (c : Community) (place : Nat) (own : Member) (step : Step) (input : NodeSet)
    (left : Step) (store : Store) : Community :=
  let changes := step.plan.index.made (step.plan.searched input) c.store store
  let ledger := c.attend place own left (step.takenIn c.store)
  { ledger.announcedAll (c.store.log (changes.map .change)) with store }

/-- A step took in what waits for it. -/
def inspect (c : Community) (place : Nat) (own : Member) (left : Step) (store : Store) :
    Community :=
  let heard := own.heard ++ own.step.drained c.store
  { c.settle place (some { own with step := left, heard }) with store }

def useAt (c : Community) (place : Nat) (own : Member) : Use → Community
  | .eval input index =>
    let step := own.step.withIndex index
    let e := step.eval input c.store
    c.evaluate place own step input.nodes e.step e.store
  | .evalItem node index =>
    let step := own.step.withIndex index
    let (_, left, store) := step.evalItem node c.store
    c.evaluate place own step (.ofList [node]) left store
  | .hasCached =>
    let (_, left, store) := own.step.hasCached c.store
    c.inspect place own left store
  | .hasPreloaded =>
    let (_, left, store) := own.step.hasPreloaded c.store
    c.inspect place own left store
  | .reset => { c.settle place (some { own with step := own.step.reset }) with store := c.store }
  | .drop => { c.settle place none with store := own.step.close c.store }

def perform (c : Community) : Action → Community
  | .change change =>
    let ledger := c.announcedAll (c.store.announces change).toList
    { ledger with store := c.store.apply change }
  | .failNextScan => { c with store := c.store.failNextScan }
  | .subscribe reaction =>
    let (id, feed) := c.store.feed.subscribe reaction
    { c with
      outside := c.outside ++ [⟨id, id, reaction⟩]
      given := c.given ++ [id]
      store := { c.store with feed } }
  | .withdraw turn =>
    match c.given[turn]? with
    | none => c
    | some id =>
      { c with
        outside := c.outside.filter (·.id ≠ id)
        store := { c.store with feed := c.store.feed.unsubscribe id } }
  | .build plan =>
    match Step.ofPlan plan with
    | .error _ => c
    | .ok step => { c with members := c.members ++ [some ⟨step, [], none⟩] }
  | .use place use =>
    match c.members[place]? with
    | some (some own) => c.useAt place own use
    | some none | none => c

def run (c : Community) (actions : List Action) : Community := actions.foldl perform c

/-- The feed of the store agrees with the ledger. -/
structure Balanced (c : Community) : Prop where
  sound : c.store.Sound
  balances : c.toLedger.Balances c.store.feed

namespace Balanced

variable {c : Community} {place : Nat} {own : Member}

theorem start : Community.start.Balanced := ⟨Store.sound_empty, .empty⟩

theorem evaluate (h : c.Balanced) (hown : c.members[place]? = some (some own)) {step left : Step}
    {input : NodeSet} {after : Store} (hstep : step.listener = own.step.listener)
    (hproceeds : step.Proceeds input c.store left after) :
    (c.evaluate place own step input left after).Balanced := by
  obtain ⟨hsound, hfeed⟩ := hproceeds.feed h.sound
  refine ⟨hsound, ?_⟩
  show Ledger.Balances _ after.feed
  rw [hfeed]
  exact (h.balances.attend hown hstep hproceeds.listener).announceAll _

theorem inspect (h : c.Balanced) (hown : c.members[place]? = some (some own)) :
    (c.inspect place own (own.step.drain c.store).1 (own.step.drain c.store).2).Balanced := by
  obtain ⟨feed, hstore⟩ := own.step.drain_store c.store
  have hlistener := own.step.listener_drain c.store
  refine ⟨?_, ?_⟩
  · show (own.step.drain c.store).2.Sound
    rw [hstore]
    exact h.sound.congr rfl (Nat.le_refl _)
  · show Ledger.Balances _ (own.step.drain c.store).2.feed
    cases hid : own.step.listener with
    | none =>
      have hdrain : own.step.drain c.store = (own.step, c.store) := by rw [Step.drain, hid]
      have hdrained : own.step.drained c.store = [] := by rw [Step.drained, hid]
      rw [Community.inspect, hdrain, hdrained, List.append_nil]
      exact h.balances.restep hown rfl
    | some id =>
      have hfeed : (own.step.drain c.store).2.feed = (c.store.feed.drain id).2 := by
        rw [Step.drain, hid]
      rw [Community.inspect, Step.drained_of_some hid, hfeed]
      exact h.balances.drain hown hid (hlistener.trans hid)

theorem useAt (h : c.Balanced) (hown : c.members[place]? = some (some own)) (use : Use) :
    (c.useAt place own use).Balanced := by
  cases use with
  | eval input index =>
    exact h.evaluate hown rfl ((own.step.withIndex index).proceeds_eval input c.store)
  | evalItem node index =>
    exact h.evaluate hown rfl ((own.step.withIndex index).proceeds_evalItem node c.store)
  | hasCached => exact h.inspect hown
  | hasPreloaded => exact h.inspect hown
  | reset => exact ⟨h.sound, h.balances.restep hown rfl⟩
  | drop =>
    cases hid : own.step.listener with
    | none =>
      have hclose : own.step.close c.store = c.store := by rw [Step.close, hid]
      rw [Community.useAt, hclose]
      exact ⟨h.sound, h.balances.drop_unheard hown hid⟩
    | some id =>
      have hclose : own.step.close c.store =
          { c.store with feed := c.store.feed.unsubscribe id } := by rw [Step.close, hid]
      rw [Community.useAt, hclose]
      exact ⟨h.sound.congr rfl (Nat.le_refl _), h.balances.drop hown hid⟩

/-- Every action keeps a community balanced. -/
theorem perform (h : c.Balanced) (action : Action) : (c.perform action).Balanced := by
  cases action with
  | change change =>
    refine ⟨h.sound.applyAll [change], ?_⟩
    show Ledger.Balances _ (c.store.apply change).feed
    rw [(h.sound.atomic change).feed_apply]
    exact h.balances.announceAll _
  | failNextScan => exact ⟨h.sound.congr rfl (Nat.le_refl _), h.balances⟩
  | subscribe reaction =>
    exact ⟨h.sound.congr rfl (Nat.le_refl _), h.balances.subscribe reaction⟩
  | withdraw turn =>
    rw [Community.perform]
    split
    · exact h
    · next id hid =>
      exact ⟨h.sound.congr rfl (Nat.le_refl _),
        h.balances.withdraw (List.mem_of_getElem? hid)⟩
  | build plan =>
    rw [Community.perform, Step.ofPlan]
    split
    · exact h
    · next step hstep =>
      have hlistener : step.listener = none := by
        split at hstep
        · cases hstep
        · cases hstep
          rfl
      exact ⟨h.sound, h.balances.build hlistener⟩
  | use place use =>
    rw [Community.perform]
    split
    · next own hown => exact h.useAt hown use
    · exact h
    · exact h

theorem run (h : c.Balanced) (actions : List Action) : (c.run actions).Balanced := by
  induction actions generalizing c with
  | nil => exact h
  | cons action actions ih => exact ih (h.perform action)

/-- What an evaluated step took in and what waits for it was announced since its first
evaluation. -/
theorem waiting (h : c.Balanced) {first : Nat} (hown : c.members[place]? = some (some own))
    (hsince : own.since = some first) :
    own.heard ++ own.step.drained c.store = c.log.drop first := by
  cases h.balances.members place own hown with
  | unheard hnone hlistener hheard => cases hnone.symm.trans hsince
  | listening first' id hsince' hlistener htaken htells hfirst hheard =>
    obtain rfl := Option.some_inj.mp (hsince'.symm.trans hsince)
    rw [Step.drained_of_some hlistener]
    exact hheard

theorem listens (h : c.Balanced) {first : Nat} (hown : c.members[place]? = some (some own))
    (hsince : own.since = some first) : ∃ id, own.step.listener = some id := by
  cases h.balances.members place own hown with
  | unheard hnone hlistener hheard => cases hnone.symm.trans hsince
  | listening first' id hsince' hlistener => exact ⟨id, hlistener⟩

end Balanced

/-- Whatever happens in a community, the feed has one listener for each registration of others that
was not withdrawn and for each step that was evaluated and is not dropped; no identifier was given
twice; and each such step took in, or still has waiting, what was announced since its first
evaluation, in order and once. -/
theorem heard_once (actions : List Action) :
    let c := start.run actions
    c.store.feed.listenerCount = c.outside.length + c.evaluated ∧ (c.given ++ c.taken).Nodup ∧
      ∀ (place : Nat) (m : Member) (first : Nat), c.members[place]? = some (some m) →
        m.since = some first → m.heard ++ m.step.drained c.store = c.log.drop first := by
  intro c
  have hbalanced : c.Balanced := Balanced.start.run actions
  have h := hbalanced.balances
  refine ⟨?_, h.distinct, fun place m first hm hsince => hbalanced.waiting hm hsince⟩
  have hlength := List.length_eq_countP_add_countP (·.id ∈ c.taken) (l := c.store.feed.listeners)
  simp only [List.countP_eq_length_filter, decide_eq_true_iff] at hlength
  rw [Feed.listenerCount, hlength, h.inside, h.outside, Nat.add_comm]

end Community

end TreeAxes
