import TreeAxes.Proofs.Step.Agreement
import TreeAxes.Proofs.Step.Coherence

/-!
# Steps told which documents to search

A cached result depends on the documents that were searched and on those that it has nodes of. A
step that walks also reads the documents of its input. If it is told to search others, a change of
a document of its input may go unnoticed: what the step then answers lacks just the nodes in such
documents.
-/

namespace TreeAxes

namespace Plan

variable {plan : Plan} {input : NodeSet} {seen : DocumentId → Store} {source : NodeSource}
  {key : DocumentId × Nat}

/-- A step that walks finds nodes in the documents of its result only. -/
theorem Walks.mem_documents_of_mem_found (h : plan.Walks)
    (hkey : key ∈ (plan.found input seen).toNodeSet source) :
    key.1 ∈ (plan.found input seen).deduplicate.documents.ids := by
  rw [h.found_eq] at hkey ⊢
  exact NodeSet.mem_ids_documents.mpr ⟨key.2, NodeSet.mem_sort.mpr hkey⟩

/-- A result that was kept while the documents that it depends on stayed the same lacks what a
walk would find in the other documents now. -/
theorem mem_found_iff_now {store : Store} {kept : Prop}
    (hread : ¬kept → ∀ doc, Store.SameAt doc (seen doc) store)
    (hdepends : ∀ doc, doc ∈ (plan.searched input).ids ∨
      doc ∈ (plan.found input seen).deduplicate.documents.ids →
        Store.SameAt doc (seen doc) store) :
    key ∈ (plan.found input seen).toNodeSet source ↔
      key ∈ (plan.found input fun _ => store).toNodeSet source ∧
        (plan.Walks → kept → key.1 ∈ (plan.searched input).ids ∨
          key.1 ∈ (plan.found input seen).deduplicate.documents.ids) := by
  by_cases hwalks : plan.Walks
  · have hmem (hsame : Store.SameAt key.1 (seen key.1) store) :
        key ∈ (plan.found input seen).toNodeSet source ↔
          key ∈ (plan.found input fun _ => store).toNodeSet source :=
      hwalks.mem_found_iff hsame
    by_cases hkept : kept
    · constructor
      · intro hkey
        have hdoc := hwalks.mem_documents_of_mem_found hkey
        exact ⟨(hmem (hdepends key.1 (.inr hdoc))).mp hkey, fun _ _ => .inr hdoc⟩
      · intro ⟨hkey, hdoc⟩
        exact (hmem (hdepends key.1 (hdoc hwalks hkept))).mpr hkey
    · rw [hmem (hread hkept key.1)]
      exact (and_iff_left fun _ h => absurd h hkept).symm
  · rw [found_eq_of_not_walks hwalks fun doc hdoc => hdepends doc (.inl hdoc)]
    exact (and_iff_left fun h => absurd h hwalks).symm

end Plan

namespace Session

variable {plan : Plan} {s : Session} {place : Nat} {held : Held} {index : Index}
  {docs : DocumentSet}

/-- The step answers for the set from its cache. -/
def FromCache (s : Session) (place : Nat) (held : Held) (index : Index) : Prop :=
  ∃ entry, s.entryFor? place held index = some entry

theorem evaluate_plain (h : s.Coherent plan) (haxis : plan.axis ≠ .namespaceAxis)
    (hplain : plan.predicates = []) (hready : ¬s.store.failNext) :
    ∃ result, (s.evaluate place held index).outcome = .ok result := by
  obtain ⟨own, hown⟩ := h.planned
  refine Step.outcome_eval_ok ?_ hready fun other left result => ⟨result, ?_⟩
  · show s.step.plan.axis ≠ _
    rw [hown]
    exact haxis
  · show s.step.plan.applyPredicates other left result = _
    rw [Plan.applyPredicates, hown, Plan.withIndex, hplain]
    rfl

/-- A step without predicates finds what a new step finds. But a step that walks, answers from its
cache and is told which documents to search misses the nodes in other documents, unless they have
nodes in its answer already. -/
theorem Reachable.eval_override (h : s.Reachable plan) (haxis : plan.axis ≠ .namespaceAxis)
    (hplain : plan.predicates = []) (hcontext : plan.contextDocs = some docs)
    (hready : ¬s.store.failNext) (hheld : s.sets[place]? = some held)
    (hundisturbed : (s.evaluate place held index).Undisturbed) :
    ∃ result new, (s.evaluate place held index).outcome = .ok result ∧
      ((plan.withIndex .quiet).fresh.eval ⟨⟨place⟩, held.nodes⟩ s.store).outcome = .ok new ∧
      ∀ key, key ∈ result.keys (s.evaluate place held index).store ↔ key ∈ new.keys s.store ∧
        (plan.Walks → s.FromCache place held index →
          key.1 ∈ docs.ids ∨ key.1 ∈ result.documents.ids) := by
  have hregular := Plan.regular_of_plain hplain
  have hcoherent := h.coherent hregular
  obtain ⟨result, hok⟩ := @evaluate_plain _ _ place held index hcoherent haxis hplain hready
  obtain ⟨hdocuments, base, input, seen, hsame, happlied, hentry, hseen⟩ :=
    hcoherent.answered hregular hheld hok hundisturbed
  have hsource := Store.source_congr hdocuments
  have hnarrow (other : Store) (left : NodeSet) (found : StepResult) :
      plan.applyPredicates other left found = .ok found := by
    rw [Plan.applyPredicates, hplain]
    rfl
  have hresult : (plan.found base seen).deduplicate = result :=
    Except.ok.inj ((hnarrow _ _ _).symm.trans happlied)
  obtain ⟨hfail, -⟩ | ⟨other, left, -, hnew⟩ :=
    plan.outcome_eval_new haxis ⟨⟨place⟩, held.nodes⟩ s.store
  · exact absurd hfail hready
  refine ⟨result, _, hok, hnew.trans (hnarrow _ _ _), fun key => ?_⟩
  have hsearched : plan.searched base = docs := by
    rw [Plan.searched, hcontext]
    rfl
  -- What the answer was found in, and what a new step finds, both as of now.
  have hnow : key ∈ (plan.found base fun _ => s.store).toNodeSet s.store.source ↔
      key ∈ (plan.found held.nodes fun _ => s.store).deduplicate.toNodeSet s.store.source := by
    rw [← StepResult.mem_deduplicate]
    exact (hsame (fun _ => s.store) s.store.source).mem_iff
  rw [StepResult.mem_keys_iff, StepResult.mem_keys_iff, hsource, ← hnow, ← hresult,
    StepResult.mem_deduplicate]
  rw [← hsearched]
  refine Plan.mem_found_iff_now (fun hnew doc => ?_) fun doc hdoc => ?_
  · exact hseen doc fun entry hcached => absurd ⟨entry, hcached⟩ hnew
  · refine hseen doc fun entry hcached => ?_
    obtain ⟨hkept, hdepends⟩ := hentry entry hcached
    rw [hdepends, DocumentSet.mem_ids_union, hkept]
    exact hdoc

/-- Two documents in which an `a` is followed by a text. -/
def paired : Store :=
  .applyAll .empty [.add "one" (shallow (.text "t")), .add "two" (shallow (.text "t"))]

/-- The `a` of the first document. -/
def followed : NodeSet := .ofList (paired.named ⟨1⟩ "a")

/-- The step for the elements that follow, told to search the second document. -/
def followers : Plan :=
  { axis := .followingSibling
    test := .anyElement
    contextDocs := some (.ofList ((paired.document? ⟨2⟩).toList.map (·.doc))) }

/-- The step has answered for the first document, in which an element has then replaced the
text. -/
def replaced : Session :=
  let s := (start followers).perform (.change (.add "one" (shallow (.text "t"))))
  let s := s.perform (.change (.add "two" (shallow (.text "t"))))
  let s := (s.perform (.create followed)).perform (.eval 0 .quiet)
  s.perform (.change (.replace ⟨1⟩ "one" (shallow (.element "b"))))

theorem reachable_replaced : replaced.Reachable followers :=
  .perform (.perform (.perform (.perform (.perform .start
    (.change (.add "one" (shallow (.text "t")))) trivial)
    (.change (.add "two" (shallow (.text "t")))) trivial)
    (.create followed) trivial) (.eval 0 .quiet) trivial)
    (.change (.replace ⟨1⟩ "one" (shallow (.element "b")))) trivial

theorem nests_shallow (last : Content) : (shallow last).Nests := by
  refine .node (.inl rfl) fun child hchild => ?_
  obtain rfl | rfl := List.mem_pair.mp hchild <;> exact .node (.inr ⟨rfl, rfl⟩) nofun

theorem nested_paired : paired.Nested := by
  refine Store.nested_empty.applyAll fun change hchange => ?_
  obtain rfl | rfl := List.mem_pair.mp hchange <;> exact nests_shallow _

theorem nested_replaced : replaced.store.Nested :=
  (nested_paired.apply (.replace ⟨1⟩ "one" (shallow (.element "b"))) (nests_shallow _)).congr rfl
    (Nat.le_refl _)

/-- The `a` is where it was. -/
theorem storedIn_replaced : followed.StoredIn replaced.store := by
  refine NodeSet.storedIn_ofList nested_replaced fun node hnode => ?_
  obtain ⟨d, hd, hdoc, -⟩ := Store.storedIn_named nested_paired hnode
  have hdocs : replaced.store.documents.map (·.doc) = paired.documents.map (·.doc) := rfl
  have hkept : d.doc ∈ replaced.store.documents.map (·.doc) := by
    rw [hdocs]
    exact List.mem_map_of_mem hd
  obtain ⟨e, he, hsame⟩ := List.mem_map.mp hkept
  have hholds : ∀ node ∈ paired.named ⟨1⟩ "a", ∀ e ∈ replaced.store.documents,
      e.doc.id = node.doc.id → e.Holds ⟨node.id, node.kind⟩ := by
    decide +kernel
  have hsame : node.doc = e.doc := hdoc.trans hsame.symm
  exact ⟨e, he, hsame, hholds node hnode e he (congrArg Document.id hsame.symm)⟩

theorem not_mem_stream_followed (key : DocumentId × Nat) (source : NodeSource) :
    key ∉ (followers.stream paired.source followed false).toNodeSet source := by
  have hstored : followed.StoredIn paired :=
    NodeSet.storedIn_ofList nested_paired fun _ => Store.storedIn_named nested_paired
  have hgathers := @Plan.gathers_stream paired _ followers followed false nested_paired hstored rfl
    fun honly => nomatch honly
  have hnone : ∀ d ∈ paired.documents, ∀ node ∈ d.nodes,
      ¬paired.Reaches (.sibling .following) .element followed.nodes (d.doc.id, node.id) := by
    decide +kernel
  intro hkey
  obtain ⟨kind, ⟨hmatches, -⟩, hreaches⟩ := (hgathers.mem_iff key).mp hkey
  obtain rfl : kind = .element := of_decide_eq_true hmatches
  obtain ⟨d, hd, hid, ⟨node, hnode, hslot, -⟩, -⟩ := id hreaches
  refine hnone d hd node hnode ?_
  rw [show (d.doc.id, node.id) = key from Prod.ext hid hslot]
  exact hreaches

/-- The step answers from its cache, so what it misses is in the first document. -/
theorem eval_override_replaced : ∃ result new,
    (replaced.evaluate 0 ⟨followed, 0⟩ .quiet).outcome = .ok result ∧
    (followers.fresh.eval ⟨⟨0⟩, followed⟩ replaced.store).outcome = .ok new ∧
    ∀ key, key ∈ result.keys (replaced.evaluate 0 ⟨followed, 0⟩ .quiet).store ↔
      key ∈ new.keys replaced.store ∧
        (followers.Walks → replaced.FromCache 0 ⟨followed, 0⟩ .quiet →
          key.1 ∈ (followers.searched followed).ids ∨ key.1 ∈ result.documents.ids) :=
  reachable_replaced.eval_override nofun rfl rfl (by decide +kernel) rfl
    ((reachable_replaced.coherent nofun).undisturbed 0 _)

/-- The step still finds nothing beside the `a`, where a new step finds the element. -/
theorem replaced_answers_stale :
    replaced.Reachable followers ∧ replaced.sets[0]? = some ⟨followed, 0⟩ ∧
      (replaced.evaluate 0 ⟨followed, 0⟩ .quiet).Undisturbed ∧
      (∃ result, (replaced.evaluate 0 ⟨followed, 0⟩ .quiet).outcome = .ok result ∧
        ∀ key, key ∉ result.keys (replaced.evaluate 0 ⟨followed, 0⟩ .quiet).store) ∧
      ∃ new, (followers.fresh.eval ⟨⟨0⟩, followed⟩ replaced.store).outcome = .ok new ∧
        (⟨1⟩, 3) ∈ new.keys replaced.store := by
  have hregular : followers.Regular := nofun
  have hcoherent := reachable_replaced.coherent hregular
  refine ⟨reachable_replaced, rfl, hcoherent.undisturbed 0 _, ?_, ?_⟩
  · obtain ⟨entry, hcached, hresult, hdocuments, hvalid⟩ : ∃ entry,
        replaced.step.cached = some entry ∧
          entry.result = (followers.stream paired.source followed false).deduplicate ∧
            entry.documents = entry.result.documents.union (followers.searched followed) ∧
              entry.isValid ⟨⟨0⟩, followed⟩ :=
      ⟨_, rfl, rfl, rfl, CacheEntry.isValid_iff.mpr ⟨rfl, rfl⟩⟩
    have hevents : replaced.store.feed.events ⟨0⟩ = [⟨⟨1⟩, .other⟩] := by decide +kernel
    have hlistener : replaced.step.listener = some ⟨0⟩ := rfl
    have hunsearched : ⟨1⟩ ∉ (followers.searched followed).ids := by decide +kernel
    have hkept :
        ((replaced.step.withIndex .quiet).takeIn replaced.store).1.cached = some entry := by
      refine Step.cached_takeIn hlistener hcached ?_
      rw [hevents]
      rintro ⟨event, hevent, hreason⟩
      rw [List.mem_singleton.mp hevent, hdocuments, DocumentSet.mem_ids_union, hresult] at hreason
      obtain hadded | hsearched | hfound := hreason
      · cases hadded
      · exact hunsearched hsearched
      · obtain ⟨id, hkey⟩ := NodeSet.mem_ids_documents.mp hfound
        exact not_mem_stream_followed (⟨1⟩, id) paired.source (NodeSet.mem_sort.mp hkey)
    refine ⟨entry.result, Step.outcome_eval_of_cached hkept hvalid, fun key hkey => ?_⟩
    rw [StepResult.mem_keys_iff, hresult, StepResult.mem_deduplicate] at hkey
    exact not_mem_stream_followed key _ hkey
  · obtain ⟨new, hnew, -, hmem⟩ := @Plan.eval_nameless
      { followers with test := .namedElement (.ofLocal "b") } ⟨⟨0⟩, followed⟩ replaced.store
      (.ofLocal "b") (.sibling .following) ⟨rfl, rfl⟩ rfl rfl nested_replaced storedIn_replaced
    refine ⟨new, hnew, (hmem _).mpr ?_⟩
    decide +kernel

end Session

end TreeAxes
