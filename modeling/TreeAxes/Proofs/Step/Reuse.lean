import TreeAxes.Proofs.NodeSet.Marks
import TreeAxes.Proofs.Step.Assembled
import TreeAxes.Proofs.Step.Coherence
import TreeAxes.Proofs.Step.Community

/-!
# Answers given again

A step gives its answer again while the revision of its input is the same. The input holds the same
nodes then, and these recall the same, unless they were marked as their own context nodes since: a
mark is no change. So a step that lets nodes inherit contexts may leave out marks when it answers
again, but nothing else. A step that remembers hands on context nodes in any case.
-/

namespace TreeAxes

/-- A search leaves its input as it was, or sorted. -/
theorem Plan.input_search (plan : Plan) (input : NodeSet) (preloaded : Option Preloaded)
    (store : Store) :
    (plan.search input (plan.searched input) preloaded store).input = input ∨
      (plan.search input (plan.searched input) preloaded store).input = input.sort := by
  have hgoes := plan.goes_search input preloaded store
  generalize plan.search input (plan.searched input) preloaded store = search at hgoes ⊢
  cases hgoes with
  | unscanned | unsupported | atHand | joined => exact .inl rfl
  | pushed => exact .inr rfl
  | failed request fault after left kept hscan hleft => exact hleft.imp_right And.left

/-- What a step finds for a set that was not changed since. Only marks can be missing from what it
found before, and if the step remembers, not even these. -/
theorem Plan.found_of_remains {plan : Plan} {store : Store} {a b : NodeSet} {marked : Prop}
    (haxis : plan.axis ≠ .namespaceAxis) (hstore : store.Sound) (ha : a.StoredIn store)
    (h : a.Remains marked b) (later : Store) :
    let found := (plan.found a fun _ => store).deduplicate
    let found' := (plan.found b fun _ => store).deduplicate
    (∀ key, key ∈ found.keys later ↔ key ∈ found'.keys later) ∧
      ∀ node ∈ (found.toNodeSet later.source).nodes,
        ∀ node' ∈ (found'.toNodeSet later.source).nodes, node.key = node'.key →
          ∀ c, (c ∈ node.context → c ∈ node'.context) ∧ (c ∈ node'.context →
            c ∈ node.context ∨ plan.remembers = false ∧ marked ∧ (c.document, c.id) ∈ b) := by
  intro found found'
  have huniform := ha.uniform hstore
  have hb := ha.of_twin hstore h.twin
  refine ⟨fun key => ?_, fun node hnode node' hnode' hkey c => ⟨fun hc => ?_, fun hc => ?_⟩⟩
  · rw [StepResult.mem_keys_iff, StepResult.mem_keys_iff, StepResult.mem_deduplicate,
      StepResult.mem_deduplicate]
    exact mem_found_iff_of_twin huniform h.twin
  · exact mem_context_found haxis hstore ha hb (h.recalledBy huniform) False.elim hnode hnode' hkey
      hc
  · by_cases hmark : plan.remembers = false ∧ marked ∧ (c.document, c.id) ∈ b
    · exact .inr hmark
    · have hrecalled : b.RecalledBy plan.remembers c a := by
        refine h.recalledBy_symm huniform fun hmarked hin => ?_
        rw [← Bool.not_eq_false]
        exact fun hforgets => hmark ⟨hforgets, hmarked, hin⟩
      exact .inl (mem_context_found haxis hstore hb ha hrecalled id hnode' hnode hkey.symm hc)

namespace Step

variable {step : Step} {input : InputSet} {store : Store} {result : StepResult}

theorem input_eval (step : Step) (input : InputSet) (store : Store) :
    (step.eval input store).input.nodes = input.nodes ∨
      (step.eval input store).input.nodes = input.nodes.sort := by
  rw [eval_eq_respond, respond]
  cases (step.takeIn store).1.entryFor? input with
  | some entry => exact .inl rfl
  | none => exact Plan.input_search _ _ _ _

/-- Without predicates, an answer that was searched for is cached. -/
theorem cached_eval_of_missed (hplain : step.plan.predicates = [])
    (hmissed : (step.takeIn store).1.entryFor? input = none)
    (hok : (step.eval input store).outcome = .ok result) :
    ∃ entry, (step.eval input store).step.cached = some entry ∧ entry.result = result ∧
      entry.revision = input.nodes.revision := by
  have hleft := step.input_eval input store
  rw [eval_eq_respond, respond, hmissed] at hok hleft ⊢
  cases hfound : ((step.takeIn store).1.searchFor input.nodes (step.takeIn store).2).outcome with
  | error fault =>
    simp [Plan.answer, hfound] at hok
  | ok found =>
    have hanswer : (step.takeIn store).1.plan.answer _ = .ok found.deduplicate :=
      Plan.answer_ok (by rw [takeIn_plan, hplain]) hfound
    simp only [hfound]
    refine ⟨_, rfl, Except.ok.inj (hanswer.symm.trans hok), ?_⟩
    obtain hleft | hleft := hleft
    · exact congrArg NodeSet.revision hleft
    · exact (congrArg NodeSet.revision hleft).trans input.nodes.sort_revision

end Step

namespace Session

variable {plan : Plan} {s : Session} {place : Nat} {held : Held}

/-- The session after a sequence of actions. -/
def run (s : Session) (actions : List Action) : Session := actions.foldl perform s

theorem plan_run {index : Index} (h : s.step.plan = plan.withIndex index) (actions : List Action) :
    ∃ index, (s.run actions).step.plan = plan.withIndex index := by
  induction actions generalizing s index with
  | nil => exact ⟨index, h⟩
  | cons action actions ih =>
    obtain ⟨between, hbetween⟩ := plan_perform h action
    exact ih hbetween

/-- A session begins with an empty store, so its store is sound. -/
theorem Reachable.sound (h : s.Reachable plan) : s.store.Sound := by
  induction h with
  | start => exact Store.sound_empty
  | @perform s h action hpermits ih =>
    have hdrained : (s.step.drain s.store).2.Sound := by
      obtain ⟨feed, hstore⟩ := s.step.drain_store s.store
      rw [hstore]
      exact ih.congr rfl (Nat.le_refl _)
    cases action with
    | change change => exact ih.applyAll [change]
    | failNextScan => exact ih.congr rfl (Nat.le_refl _)
    | create | operate | reset => exact ih
    | eval place index =>
      rw [Session.perform]
      cases s.sets[place]? with
      | none => exact ih
      | some held => exact ((Step.proceeds_eval _ _ _).feed ih).1
    | evalItem node index => exact ((Step.proceeds_evalItem _ _ _).feed ih).1
    | hasCached | hasPreloaded => exact hdrained

/-- What an action leaves of a set: if it does not change the set, then all that may have happened
is that the nodes were marked. -/
theorem becomes_perform (s : Session) (action : Action) (hheld : s.sets[place]? = some held) :
    ∃ later, (s.perform action).sets[place]? = some later ∧
      held.Becomes (fun a b => a.Uniform →
        a.Remains (action = .operate place .setSelfAsContext) b) later := by
  have hidle (hnot : action ≠ .operate place .setSelfAsContext) :
      held.Becomes (fun a b => a.Uniform →
        a.Remains (action = .operate place .setSelfAsContext) b) held :=
    Held.becomes_of_rel (fun _ => .of_recalls (.refl _) (fun _ _ => Iff.rfl) hnot) rfl rfl
  cases action with
  | change | failNextScan | evalItem | hasCached | hasPreloaded | reset =>
    exact ⟨held, hheld, hidle (by rintro ⟨⟩)⟩
  | create nodes =>
    refine ⟨held, ?_, hidle (by rintro ⟨⟩)⟩
    exact (List.getElem?_append_left (List.getElem?_eq_some_iff.mp hheld).1).trans hheld
  | operate other operation =>
    simp only [perform, List.getElem?_modify, hheld]
    by_cases hplace : other = place
    · subst hplace
      refine ⟨_, congrArg some (if_pos rfl), held.becomes_perform fun hnone huniform => ?_⟩
      simpa using huniform.remains_perform hnone
    · refine ⟨_, congrArg some (if_neg hplace), hidle ?_⟩
      rintro ⟨⟩
      exact hplace rfl
  | eval other index =>
    rw [perform]
    cases hother : s.sets[other]? with
    | none => exact ⟨held, hheld, hidle (by rintro ⟨⟩)⟩
    | some before =>
      simp only [evaluated, List.getElem?_modify, hheld]
      by_cases hplace : other = place
      · subst hplace
        obtain rfl := Option.some_inj.mp (hheld.symm.trans hother)
        refine ⟨_, congrArg some (if_pos rfl), ?_⟩
        obtain hleft | hleft := (s.step.withIndex index).input_eval ⟨⟨other⟩, held.nodes⟩ s.store
        · rw [evaluate, hleft]
          exact hidle (by rintro ⟨⟩)
        · rw [evaluate, hleft]
          refine Held.becomes_of_rel (fun huniform => ?_) rfl held.nodes.sort_revision
          exact .of_recalls (.sort huniform) (fun _ _ => NodeSet.recalls_sort) (by rintro ⟨⟩)
      · exact ⟨_, congrArg some (if_neg hplace), hidle (by rintro ⟨⟩)⟩

/-- What actions leave of a set that none of them changes. -/
theorem becomes_run (s : Session) (actions : List Action) (hheld : s.sets[place]? = some held) :
    ∃ later, (s.run actions).sets[place]? = some later ∧
      held.Becomes (fun a b => a.Uniform →
        a.Remains (.operate place .setSelfAsContext ∈ actions) b) later := by
  induction actions generalizing s held with
  | nil =>
    refine ⟨held, hheld, Held.becomes_of_rel (fun _ => ?_) rfl rfl⟩
    exact .of_recalls (.refl _) (fun _ _ => Iff.rfl) List.not_mem_nil
  | cons action actions ih =>
    obtain ⟨between, hbetween, hfirst⟩ := s.becomes_perform action hheld
    obtain ⟨later, hlater, hrest⟩ := ih (s.perform action) hbetween
    refine ⟨later, hlater, hfirst.trans hrest fun hremains hremains' huniform => ?_⟩
    have hremains := hremains huniform
    have hboth := hremains.trans (hremains' (hremains.twin.uniform huniform))
    rwa [eq_comm, ← List.mem_cons] at hboth

variable {result : StepResult}

/-- If nothing is cached for a set, the answer is what the store holds. -/
theorem Coherent.found_of_missed (h : s.Coherent plan) (hplain : plan.predicates = [])
    (hmissed : s.entryFor? place held .quiet = none)
    (hok : (s.evaluate place held .quiet).outcome = .ok result) :
    result = (plan.found held.nodes fun _ => s.store).deduplicate := by
  obtain ⟨own, hown⟩ := h.planned
  have hplan : ((s.step.withIndex .quiet).takeIn s.store).1.plan = plan.withIndex .quiet :=
    (Step.takeIn_plan _ s.store).trans (congrArg (·.withIndex .quiet) hown)
  obtain ⟨feed, hstore⟩ := (s.step.withIndex .quiet).takeIn_store s.store
  obtain ⟨id, -, -, hleaves, hanswers⟩ :=
    (h.attends.withIndex .quiet).eval ⟨⟨place⟩, held.nodes⟩
  have hstill := h.undisturbed place held id hleaves.listener
  cases hanswers with
  | cached entry hentry => cases hmissed.symm.trans hentry
  | failed fault houtcome => cases houtcome.symm.trans hok
  | found _ seen houtcome hseen =>
    have hread (doc : DocumentId) : Store.SameAt doc (seen doc) s.store := by
      have htaken := (hleaves.leads.still hstill).trans (congrArg Store.documents hstore)
      exact .of_documents (((hseen doc).still hstill).symm.trans htaken)
    have hplain' : (plan.withIndex .quiet).predicates = [] := hplain
    rw [hplan, Plan.applyPredicates_of_plain hplain'] at houtcome
    rw [Except.ok.inj (hok.symm.trans houtcome)]
    exact congrArg StepResult.deduplicate
      (plan.found_congr (fun doc _ => hread doc) fun doc _ => hread doc)

/-- When a step that searched for its answer answers from the entry it cached, the answer is the
same, and the set has the revision that it had. -/
theorem Coherent.outcome_again (h : s.Coherent plan) (hplain : plan.predicates = [])
    (hheld : s.sets[place]? = some held) (hmissed : s.entryFor? place held .quiet = none)
    (hok : (s.evaluate place held .quiet).outcome = .ok result) {between : List Action}
    {again : Session} {later : Held}
    (hagain : (s.perform (.eval place .quiet)).run between = again)
    (hreused : again.entryFor? place later .quiet =
      (s.perform (.eval place .quiet)).step.cached) :
    (again.evaluate place later .quiet).outcome = .ok result ∧
      held.nodes.revision = later.nodes.revision := by
  obtain ⟨own, hown⟩ := h.planned
  have hstepplain : (s.step.withIndex .quiet).plan.predicates = [] := by
    show s.step.plan.predicates = []
    rw [hown]
    exact hplain
  obtain ⟨entry, hcached, hresult, hrevision⟩ := Step.cached_eval_of_missed hstepplain hmissed hok
  have hfirst : s.perform (.eval place .quiet) = s.evaluated place held .quiet := by
    rw [Session.perform, hheld]
  obtain ⟨hkept, hvalid⟩ :=
    Option.filter_eq_some_iff.mp (hreused.trans ((congrArg (·.step.cached) hfirst).trans hcached))
  refine ⟨?_, hrevision.symm.trans (CacheEntry.isValid_iff.mp hvalid).2⟩
  obtain ⟨index, hindex⟩ := plan_run hown (.eval place .quiet :: between)
  have hlater : (again.step.withIndex .quiet).plan.predicates = [] := by
    show again.step.plan.predicates = []
    rw [← hagain]
    exact (congrArg Plan.predicates hindex).trans hplain
  refine (Step.outcome_eval_of_cached hkept hvalid).trans ?_
  rw [hresult]
  exact Plan.applyPredicates_of_plain hlater _ _ _

/-- A step without predicates that searched for its answer may give it again later, while what it
read is the same. The answer names the nodes that a new step finds then, and these remember nothing
that they do not remember as the new step finds them. Nor do they leave out anything but nodes of
the input that were marked as their own context nodes meanwhile, and that only if the step does not
remember. -/
theorem Reachable.answer_again (h : s.Reachable plan) (hplain : plan.predicates = [])
    (haxis : plan.axis ≠ .namespaceAxis) (hheld : s.sets[place]? = some held)
    (hstored : held.nodes.StoredIn s.store) (hmissed : s.entryFor? place held .quiet = none)
    (hok : (s.evaluate place held .quiet).outcome = .ok result)
    {between : List Action} {again : Session} {later : Held}
    (hagain : (s.perform (.eval place .quiet)).run between = again)
    (hsame : ∀ doc, doc ∈ (plan.searched held.nodes).ids ∨ doc ∈ held.nodes.documents.ids →
      Store.SameAt doc again.store s.store)
    (hlater : again.sets[place]? = some later)
    (hbounded : later.mutations < held.mutations + 2 ^ 32)
    (hreused : again.entryFor? place later .quiet =
      (s.perform (.eval place .quiet)).step.cached) :
    let outcome :=
      ((plan.withIndex .quiet).fresh.eval ⟨⟨place⟩, later.nodes⟩ again.store).outcome
    (again.evaluate place later .quiet).outcome = .ok result ∧
      (again.store.failNext ∧ outcome = .error (.index .injected) ∨
        ∃ new, outcome = .ok new ∧
          (∀ key, key ∈ result.keys again.store ↔ key ∈ new.keys again.store) ∧
          ∀ node ∈ (result.toNodeSet again.store.source).nodes,
            ∀ node' ∈ (new.toNodeSet again.store.source).nodes, node.key = node'.key →
              ∀ c, (c ∈ node.context → c ∈ node'.context) ∧
                (c ∈ node'.context → c ∈ node.context ∨ plan.remembers = false ∧
                  Action.operate place .setSelfAsContext ∈ between ∧
                    (c.document, c.id) ∈ later.nodes)) := by
  intro outcome
  have hcoherent := h.coherent (Plan.regular_of_plain hplain)
  have hfound := hcoherent.found_of_missed hplain hmissed hok
  obtain ⟨hanswer, hrevision⟩ := hcoherent.outcome_again hplain hheld hmissed hok hagain hreused
  obtain ⟨other, hother, hbecomes⟩ := s.becomes_run (.eval place .quiet :: between) hheld
  obtain rfl : later = other := Option.some_inj.mp (hlater.symm.trans (hagain ▸ hother))
  have hremains := hbecomes.rel hbounded hrevision (hstored.uniform h.sound)
  refine ⟨hanswer, ?_⟩
  obtain hfail | ⟨store, left, -, hnew⟩ :=
    plan.outcome_eval_new haxis ⟨⟨place⟩, later.nodes⟩ again.store
  · exact .inl hfail
  refine .inr ⟨_, hnew.trans (Plan.applyPredicates_of_plain hplain _ _ _), ?_⟩
  have hmarked : Action.operate place .setSelfAsContext ∈ .eval place .quiet :: between ↔
      Action.operate place .setSelfAsContext ∈ between := by simp
  rw [hmarked] at hremains
  rw [Plan.searched, hremains.twin.documents_eq] at hsame
  rw [hfound, plan.found_congr (fun doc hdoc => hsame doc (.inl hdoc)) fun doc hdoc =>
    hsame doc (.inr hdoc)]
  exact Plan.found_of_remains haxis h.sound hstored hremains again.store

/-- The step for the node above another. -/
def above : Plan := { axis := .parent, test := .anyNode }

/-- The `a` of a stored tree. -/
def leaf : NodeSet :=
  .ofList ((Store.empty.apply (.add "one" (shallow (.text "t")))).named ⟨1⟩ "a")

/-- A session with the `a`, for which the step has not been evaluated. -/
def asked : Session :=
  ((start above).perform (.change (.add "one" (shallow (.text "t"))))).perform (.create leaf)

/-- The step has answered for the `a`, which then became its own context node. -/
def selfMarked : Session := (asked.perform (.eval 0 .quiet)).run [.operate 0 .setSelfAsContext]

theorem reachable_asked : asked.Reachable above :=
  .perform (.perform .start (.change (.add "one" (shallow (.text "t")))) trivial) (.create leaf)
    trivial

theorem storedIn_leaf : leaf.StoredIn asked.store :=
  NodeSet.storedIn_ofList reachable_asked.sound fun _ =>
    Store.storedIn_named reachable_asked.sound

theorem entryFor?_selfMarked :
    selfMarked.entryFor? 0 ⟨leaf.setSelfAsContext, 0⟩ .quiet =
      (asked.perform (.eval 0 .quiet)).step.cached := by
  obtain ⟨entry, hcached, hvalid⟩ : ∃ entry, selfMarked.step.cached = some entry ∧
      entry.isValid ⟨⟨0⟩, leaf.setSelfAsContext⟩ :=
    ⟨_, rfl, CacheEntry.isValid_iff.mpr ⟨rfl, rfl⟩⟩
  have hevents : selfMarked.store.feed.events ⟨0⟩ = [] := by decide +kernel
  have hkept : ((selfMarked.step.withIndex .quiet).takeIn selfMarked.store).1.cached = some entry :=
    Step.cached_takeIn rfl hcached (hevents ▸ nofun)
  rw [entryFor?, Step.entryFor?, hkept, Option.filter_some, if_pos hvalid]
  exact hcached.symm

/-- The step answers for the marked `a` as it did before. -/
theorem answer_again_selfMarked : ∃ result new,
    (asked.evaluate 0 ⟨leaf, 0⟩ .quiet).outcome = .ok result ∧
      selfMarked.sets[0]? = some ⟨leaf.setSelfAsContext, 0⟩ ∧
      (selfMarked.evaluate 0 ⟨leaf.setSelfAsContext, 0⟩ .quiet).outcome = .ok result ∧
      (above.fresh.eval ⟨⟨0⟩, leaf.setSelfAsContext⟩ selfMarked.store).outcome = .ok new ∧
      (∀ key, key ∈ result.keys selfMarked.store ↔ key ∈ new.keys selfMarked.store) ∧
      ∀ node ∈ (result.toNodeSet selfMarked.store.source).nodes,
        ∀ node' ∈ (new.toNodeSet selfMarked.store.source).nodes, node.key = node'.key →
          ∀ c, (c ∈ node.context → c ∈ node'.context) ∧
            (c ∈ node'.context → c ∈ node.context ∨ above.remembers = false ∧
              Action.operate 0 .setSelfAsContext ∈ [Action.operate 0 .setSelfAsContext] ∧
                (c.document, c.id) ∈ leaf.setSelfAsContext) := by
  obtain ⟨result, hok⟩ : ∃ result, (asked.evaluate 0 ⟨leaf, 0⟩ .quiet).outcome = .ok result :=
    ⟨_, rfl⟩
  have hlater : selfMarked.sets[0]? = some ⟨leaf.setSelfAsContext, 0⟩ := rfl
  have hagain : (asked.perform (.eval 0 .quiet)).run [.operate 0 .setSelfAsContext] = selfMarked :=
    rfl
  obtain ⟨hanswer, ⟨hfail, -⟩ | ⟨new, hnew, hanswers⟩⟩ := reachable_asked.answer_again rfl nofun rfl
    storedIn_leaf rfl hok hagain (fun _ _ => rfl) hlater (by decide) entryFor?_selfMarked
  · have hready : ¬selfMarked.store.failNext := by decide +kernel
    exact absurd hfail hready
  · exact ⟨result, new, hok, hlater, hanswer, hnew, hanswers⟩

/-- The root remembers the `a` in the answer of a new step, but not in the one that is given
again. -/
theorem answer_again_leaves_out :
    asked.Reachable above ∧ asked.sets[0]? = some ⟨leaf, 0⟩ ∧ leaf.StoredIn asked.store ∧
      selfMarked.store.documents = asked.store.documents ∧
      ∃ later result new, selfMarked.sets[0]? = some later ∧ later.mutations = 0 ∧
        selfMarked.entryFor? 0 later .quiet = (asked.perform (.eval 0 .quiet)).step.cached ∧
        (asked.evaluate 0 ⟨leaf, 0⟩ .quiet).outcome = .ok result ∧
        (selfMarked.evaluate 0 later .quiet).outcome = .ok result ∧
        (above.fresh.eval ⟨⟨0⟩, later.nodes⟩ selfMarked.store).outcome = .ok new ∧
        ∃ node ∈ (result.toNodeSet selfMarked.store.source).nodes,
          ∃ node' ∈ (new.toNodeSet selfMarked.store.source).nodes, node.key = node'.key ∧
            ∃ c ∈ node'.context, c ∉ node.context := by
  obtain ⟨result, hok⟩ : ∃ result, (asked.evaluate 0 ⟨leaf, 0⟩ .quiet).outcome = .ok result :=
    ⟨_, rfl⟩
  have hlater : selfMarked.sets[0]? = some ⟨leaf.setSelfAsContext, 0⟩ := rfl
  have hcoherent := reachable_asked.coherent nofun
  have hagain := (hcoherent.outcome_again rfl rfl rfl hok rfl entryFor?_selfMarked).1
  have hresult := hcoherent.found_of_missed rfl rfl hok
  obtain ⟨hfail, -⟩ | ⟨other, left, -, hnew⟩ :=
    above.outcome_eval_new nofun ⟨⟨0⟩, leaf.setSelfAsContext⟩ selfMarked.store
  · have hready : ¬selfMarked.store.failNext := by decide +kernel
    exact absurd hfail hready
  refine ⟨reachable_asked, rfl, storedIn_leaf, rfl, _, result, _, hlater, rfl,
    entryFor?_selfMarked, hok, hagain, hnew, ?_⟩
  have hroot : (⟨1⟩, 1) ∈ leaf.parents false ∧ (⟨1⟩, 1) ∈ leaf.setSelfAsContext.parents false := by
    rw [NodeSet.mem_iff_exists_node, NodeSet.mem_iff_exists_node]
    decide +kernel
  obtain ⟨node, hnode, hkey⟩ := NodeSet.mem_iff_exists_node.mp (NodeSet.mem_sort.mpr hroot.1)
  obtain ⟨node', hnode', hkey'⟩ := NodeSet.mem_iff_exists_node.mp (NodeSet.mem_sort.mpr hroot.2)
  have hrecalls : (leaf.setSelfAsContext.parents false).Recalls (⟨1⟩, 1) ⟨⟨1⟩, 2⟩ := by
    rw [NodeSet.Recalls]
    decide +kernel
  have hforgets : ¬(leaf.parents false).Recalls (⟨1⟩, 1) ⟨⟨1⟩, 2⟩ := by
    rw [NodeSet.Recalls]
    decide +kernel
  refine ⟨node, hresult ▸ hnode, node', hnode', hkey.trans hkey'.symm, ⟨⟨1⟩, 2⟩, ?_, ?_⟩
  · rw [NodeSet.mem_context_sort_iff hnode', hkey']
    exact hrecalls
  · rw [NodeSet.mem_context_sort_iff hnode, hkey]
    exact hforgets

end Session

end TreeAxes
