import TreeAxes.Proofs.Step.Reach
import TreeAxes.Proofs.Step.Session

/-!
# Coherence

A step that answers after many evaluations finds what a new step finds in the store as it is. The
proof names the states in which the documents were read for the answer: those that are looked at
are the same as they are now, so the search may as well have been made now.
-/

namespace TreeAxes

namespace Plan

variable {plan : Plan} {input : NodeSet} {preloaded : Option Preloaded} {store : Store}

/-! ## New steps -/

/-- A new step that nobody disturbs narrows what the store holds, unless the scan is to fail. -/
theorem outcome_eval_new (haxis : plan.axis ≠ .namespaceAxis) (input : InputSet) (store : Store) :
    let outcome := ((plan.withIndex .quiet).fresh.eval input store).outcome
    store.failNext ∧ outcome = .error (.index .injected) ∨
      ∃ (other : Store) (left : NodeSet), other.documents = store.documents ∧
        outcome = plan.applyPredicates other left
          (plan.found input.nodes fun _ => store).deduplicate := by
  intro outcome
  obtain ⟨feed, houtcome⟩ := Step.outcome_eval_fresh (plan.withIndex .quiet) input store
  let search := (plan.withIndex .quiet).search input.nodes (plan.searched input.nodes) none
    { store with feed }
  have houtcome : outcome = (plan.withIndex .quiet).answer search := houtcome
  rw [houtcome, answer]
  obtain ⟨result, hresult⟩ | ⟨hfail, herror⟩ :=
    @outcome_search (plan.withIndex .quiet) input.nodes none { store with feed } haxis
  · right
    refine ⟨search.store, search.input, (store_search_quiet rfl).1, ?_⟩
    obtain rfl := found_of_search_quiet rfl hresult
    rw [show search.outcome = _ from hresult]
    rfl
  · left
    exact ⟨hfail, by rw [show search.outcome = _ from herror]⟩

end Plan

/-! ## Single evaluations -/

namespace Step

variable {step : Step} {input : InputSet} {store : Store}

/-- Unless the next scan is to fail, only predicates make a step fail. -/
theorem outcome_eval_ok (haxis : step.plan.axis ≠ .namespaceAxis) (hready : ¬store.failNext)
    (hnarrow : ∀ (other : Store) (left : NodeSet) (result : StepResult),
      ∃ narrowed, step.plan.applyPredicates other left result = .ok narrowed) :
    ∃ result, (step.eval input store).outcome = .ok result := by
  obtain ⟨feed, hstore⟩ := step.takeIn_store store
  have hplan := step.takeIn_plan store
  rw [eval_eq_respond, respond]
  cases (step.takeIn store).1.entryFor? input with
  | some entry =>
    rw [hplan]
    exact hnarrow _ _ _
  | none =>
    have hsearch : (∃ result, ((step.takeIn store).1.searchFor input.nodes
        (step.takeIn store).2).outcome = .ok result) ∨ _ :=
      Plan.outcome_search (hplan ▸ haxis)
    obtain ⟨result, hresult⟩ | ⟨hfail, -⟩ := hsearch
    · simp only [Plan.answer, hresult, hplan]
      exact hnarrow _ _ _
    · rw [hstore] at hfail
      exact absurd hfail hready

/-- An entry that is valid after the events are taken in answers, even if a scan would fail. -/
theorem outcome_eval_of_cached {entry : CacheEntry}
    (hcached : (step.takeIn store).1.cached = some entry) (hvalid : entry.isValid input) :
    (step.eval input store).outcome =
      step.plan.applyPredicates (step.takeIn store).2 input.nodes entry.result := by
  have hentry : (step.takeIn store).1.entryFor? input = some entry :=
    Option.filter_eq_some_iff.mpr ⟨hcached, hvalid⟩
  rw [eval_eq_respond, respond, hentry, takeIn_plan]

/-- If nobody disturbs it, an evaluation leaves the feed as it is after the events are taken in. -/
theorem feed_eval_quiet (hindex : step.plan.index = .quiet) :
    (step.eval input store).store.feed = (step.takeIn store).2.feed := by
  rw [eval_eq_respond, respond]
  cases (step.takeIn store).1.entryFor? input with
  | some entry => rfl
  | none =>
    refine (Plan.store_search_quiet ?_).2
    rw [takeIn_plan, hindex]

end Step

/-! ## Answers of a session -/

/-- Nothing that changed during the evaluation waits for the step. -/
def Evaluation.Undisturbed (e : Evaluation) : Prop :=
  ∀ id ∈ e.step.listener, e.store.feed.events id = []

namespace Session

variable {plan : Plan} {s : Session} {place : Nat} {held : Held} {index : Index}
  {result : StepResult}

/-- The cached entry that answers for a set, once the step has taken in the events. -/
def entryFor? (s : Session) (place : Nat) (held : Held) (index : Index) : Option CacheEntry :=
  ((s.step.withIndex index).takeIn s.store).1.entryFor? ⟨⟨place⟩, held.nodes⟩

namespace Coherent

/-- An evaluation is undisturbed if the index makes no changes. -/
theorem undisturbed (h : s.Coherent plan) (place : Nat) (held : Held) :
    (s.evaluate place held .quiet).Undisturbed := by
  intro other hother
  obtain ⟨id, hevents, -, hleaves, -⟩ := (h.attends.withIndex .quiet).eval ⟨⟨place⟩, held.nodes⟩
  obtain rfl := Option.some_inj.mp (hleaves.listener.symm.trans hother)
  rw [evaluate, Step.feed_eval_quiet rfl]
  exact hevents

/-- An answer was found for a set that the step does not tell from the one it is asked for. What
was read for it is still so, but in documents that the entry it was taken from leaves out. -/
theorem answered (h : s.Coherent plan) (hregular : plan.Regular)
    (hheld : s.sets[place]? = some held)
    (hok : (s.evaluate place held index).outcome = .ok result)
    (hundisturbed : (s.evaluate place held index).Undisturbed) :
    (s.evaluate place held index).store.documents = s.store.documents ∧
      ∃ (base input : NodeSet) (seen : DocumentId → Store), plan.SameInput base held.nodes ∧
        plan.applyPredicates (s.evaluate place held index).store input
          (plan.found base seen).deduplicate = .ok result ∧
        (∀ entry ∈ s.entryFor? place held index,
          entry.result = (plan.found base seen).deduplicate ∧
            entry.documents = entry.result.documents.union (plan.searched base)) ∧
        ∀ doc, (∀ entry ∈ s.entryFor? place held index, doc ∈ entry.documents.ids) →
          Store.SameAt doc (seen doc) s.store := by
  obtain ⟨own, hown⟩ := h.planned
  have hplanned : (s.step.withIndex index).plan = plan.withIndex index :=
    congrArg (·.withIndex index) hown
  have hplan := (Step.takeIn_plan _ s.store).trans hplanned
  obtain ⟨feed, hstore⟩ := (s.step.withIndex index).takeIn_store s.store
  obtain ⟨id, hevents, hkept, hleaves, hanswers⟩ :=
    (h.attends.withIndex index).eval ⟨⟨place⟩, held.nodes⟩
  have htaken : ((s.step.withIndex index).takeIn s.store).2.documents = s.store.documents := by
    rw [hstore]
  have hstill := hundisturbed id hleaves.listener
  refine ⟨(hleaves.leads.still hstill).trans htaken, ?_⟩
  cases hanswers with
  | failed fault houtcome =>
    rw [evaluate, houtcome] at hok
    cases hok
  | found hnone seen houtcome hseen =>
    rw [hplan] at houtcome
    refine ⟨held.nodes, _, seen, hregular.sameInput_refl _, houtcome.symm.trans hok, ?_, ?_⟩
    · intro entry hentry
      cases hnone.symm.trans hentry
    · intro doc _
      exact .of_documents (((hseen doc).still hstill).symm.trans
        ((hleaves.leads.still hstill).trans htaken))
  | cached entry hentry houtcome hafter =>
    obtain ⟨hcached, hvalid⟩ := Option.filter_eq_some_iff.mp hentry
    obtain ⟨hcached, hlistener, hcurrent⟩ := hkept entry hcached
    obtain ⟨base, hbase, other, first, later, hidentity, hlater, hfirst, hrevision, hfollows⟩ :=
      h.cached entry hcached id hlistener
    rw [hplanned] at hcurrent
    obtain ⟨seen, hresult, hdocuments, hreflects⟩ := hcurrent base hbase
    obtain ⟨hsame, hunchanged⟩ := CacheEntry.isValid_iff.mp hvalid
    obtain rfl : other = place := congrArg SetIdentity.raw (hidentity.symm.trans hsame)
    obtain rfl := Option.some_inj.mp (hheld.symm.trans hlater)
    subst hfirst
    have houtdates : ¬Outdates (((s.step.withIndex index).takeIn s.store).2.feed.events id)
        entry.documents := by
      rintro ⟨e, he, -⟩
      rw [hevents] at he
      cases he
    rw [hplan, hresult, ← hafter] at houtcome
    refine ⟨first.nodes, _, seen, ?_, houtcome.symm.trans hok, ?_, ?_⟩
    · have hbounded := h.bounded other held hheld
      exact Held.Becomes.rel hfollows (by omega) (hrevision.trans hunchanged)
    · intro entry' hentry'
      obtain rfl := Option.some_inj.mp (hentry.symm.trans hentry')
      exact ⟨hresult, hdocuments⟩
    · intro doc hdoc
      exact (hreflects.same houtdates doc (hdoc entry hentry)).trans
        (Store.SameAt.of_documents htaken)

end Coherent

/-- A step that answers finds what a new step finds, unless the scan of the new step is to fail. -/
theorem Reachable.eval_as_new (h : s.Reachable plan) (haxis : plan.axis ≠ .namespaceAxis)
    (hcontext : plan.contextDocs = none) (hregular : plan.Regular)
    (hheld : s.sets[place]? = some held)
    (hok : (s.evaluate place held index).outcome = .ok result)
    (hundisturbed : (s.evaluate place held index).Undisturbed) :
    let outcome := ((plan.withIndex .quiet).fresh.eval ⟨⟨place⟩, held.nodes⟩ s.store).outcome
    s.store.failNext ∧ outcome = .error (.index .injected) ∨
      ∃ new, outcome = .ok new ∧
        ∀ key, key ∈ result.keys (s.evaluate place held index).store ↔ key ∈ new.keys s.store := by
  intro outcome
  obtain ⟨hdocuments, base, input, seen, hsame, happlied, hentry, hseen⟩ :=
    (h.coherent hregular).answered hregular hheld hok hundisturbed
  have hsearched : plan.searched base = base.documents := by rw [Plan.searched, hcontext]; rfl
  have hread : ∀ doc ∈ base.documents.ids, Store.SameAt doc (seen doc) s.store := by
    intro doc hdoc
    refine hseen doc fun entry hcached => ?_
    rw [(hentry entry hcached).2, DocumentSet.mem_ids_union, hsearched]
    exact .inl hdoc
  have hfound : plan.found base seen = plan.found base fun _ => s.store :=
    Plan.found_congr (hsearched ▸ hread) hread
  rw [hfound] at happlied
  obtain hfail | ⟨other, left, hother, hnew⟩ :=
    plan.outcome_eval_new haxis ⟨⟨place⟩, held.nodes⟩ s.store
  · exact .inl hfail
  · right
    have hsource : (s.evaluate place held index).store.source = other.source :=
      Store.source_congr (hdocuments.trans hother.symm)
    have halike : NodeSet.Alike plan.counts (Store.docsAt fun _ => s.store)
        ((plan.found base fun _ => s.store).deduplicate.toNodeSet
          (s.evaluate place held index).store.source)
        ((plan.found held.nodes fun _ => s.store).deduplicate.toNodeSet other.source) := by
      rw [hsource]
      exact hsame _ _
    obtain ⟨new, hnarrowed, hkeys⟩ := plan.applyPredicates_alike hregular
      (hdocuments.trans hother.symm) halike happlied
    refine ⟨new, hnew.trans hnarrowed, fun key => ?_⟩
    rw [StepResult.mem_keys_iff, StepResult.mem_keys_iff, hkeys,
      Store.source_congr hother]

/-- The step for the first `a` below a node. -/
def firstBelow : Plan :=
  { axis := .child, test := .namedElement (.ofLocal "a"), predicates := [.position 1] }

/-- A tree with a root and two nodes below it. -/
def shallow (last : Content) : Tree :=
  .node (.element "r") [] [.leaf (.element "a"), .leaf last]

/-- The root of a stored tree. -/
def root : NodeSet :=
  .ofList ((Store.empty.apply (.add "one" (shallow (.text "t")))).named ⟨1⟩ "r")

/-- A session in which the step has answered for the root. -/
def settled : Session :=
  let s := (start firstBelow).perform (.change (.add "one" (shallow (.text "t"))))
  (s.perform (.create root)).perform (.eval 0 .quiet)

theorem reachable_settled : settled.Reachable firstBelow :=
  .perform (.perform (.perform .start (.change (.add "one" (shallow (.text "t")))) trivial)
    (.create root) trivial) (.eval 0 .quiet) trivial

theorem regular_firstBelow : firstBelow.Regular := by
  intro p hp
  rw [List.mem_singleton.mp hp]
  rfl

/-- The step answers as a new one when it is asked again. -/
theorem eval_as_new_settled : ∃ result new,
    settled.sets[0]? = some ⟨root.sort, 0⟩ ∧
    (settled.evaluate 0 ⟨root.sort, 0⟩ .quiet).outcome = .ok result ∧
    (firstBelow.fresh.eval ⟨⟨0⟩, root.sort⟩ settled.store).outcome = .ok new ∧
    ∀ key, key ∈ result.keys (settled.evaluate 0 ⟨root.sort, 0⟩ .quiet).store ↔
      key ∈ new.keys settled.store := by
  have hheld : settled.sets[0]? = some ⟨root.sort, 0⟩ := rfl
  obtain ⟨result, hok⟩ :
      ∃ result, (settled.evaluate 0 ⟨root.sort, 0⟩ .quiet).outcome = .ok result :=
    Step.outcome_eval_ok nofun (by decide +kernel) fun _ _ _ => ⟨_, rfl⟩
  have hundisturbed :=
    (reachable_settled.coherent regular_firstBelow).undisturbed 0 ⟨root.sort, 0⟩
  obtain ⟨hfail, -⟩ | ⟨new, hnew, hkeys⟩ := reachable_settled.eval_as_new nofun rfl
    regular_firstBelow hheld hok hundisturbed
  · have hready : ¬settled.store.failNext := by decide +kernel
    exact absurd hfail hready
  · exact ⟨result, new, hheld, hok, hnew, hkeys⟩

/-- If the next scan is to fail, a new step fails where the step answers from its cache. -/
theorem settled_answers_new_fails :
    let s := settled.perform .failNextScan
    s.Reachable firstBelow ∧ s.sets[0]? = some ⟨root.sort, 0⟩ ∧
      (s.evaluate 0 ⟨root.sort, 0⟩ .quiet).Undisturbed ∧
      (∃ result, (s.evaluate 0 ⟨root.sort, 0⟩ .quiet).outcome = .ok result) ∧
      (firstBelow.fresh.eval ⟨⟨0⟩, root.sort⟩ s.store).outcome = .error (.index .injected) := by
  intro s
  have hreachable : s.Reachable firstBelow := reachable_settled.perform .failNextScan trivial
  obtain ⟨entry, hcached, hvalid⟩ : ∃ entry, s.step.cached = some entry ∧
      entry.isValid ⟨⟨0⟩, root.sort⟩ :=
    ⟨_, rfl, CacheEntry.isValid_iff.mpr ⟨rfl, rfl⟩⟩
  have hevents : s.store.feed.events ⟨0⟩ = [] := by decide +kernel
  have hkept : ((s.step.withIndex .quiet).takeIn s.store).1.cached = some entry :=
    Step.cached_takeIn rfl hcached (hevents ▸ nofun)
  refine ⟨hreachable, rfl, (hreachable.coherent regular_firstBelow).undisturbed 0 _, ?_, ?_⟩
  · exact ⟨_, Step.outcome_eval_of_cached hkept hvalid⟩
  · obtain ⟨feed, houtcome⟩ := Step.outcome_eval_fresh firstBelow ⟨⟨0⟩, root.sort⟩ s.store
    rw [houtcome]
    rfl

end Session

end TreeAxes
