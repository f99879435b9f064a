import TreeAxes.Proofs.Store.Delivery

/-!
# Changes of a store

A change of a store is refused and leaves no trace, or it settles what the store holds of one
document and is announced once, when that can be seen. What is announced follows from what the
operations return, so a listener that stays has heard exactly that.
-/

namespace TreeAxes

namespace Store

/-- The event that is due for a change, by what the operation returns: none for an error, nothing or
false. -/
def announces (store : Store) : Change → Option ChangeEvent
  | .add uri tree =>
    match (store.add uri tree).1 with
    | .ok doc => some ⟨doc.id, .added⟩
    | .error _ => none
  | .replace id uri tree =>
    match (store.replace id uri tree).1 with
    | .ok (some _) => some ⟨id, .other⟩
    | .ok none | .error _ => none
  | .touch id => if (store.touch id).1 then some ⟨id, .other⟩ else none
  | .remove id => if (store.remove id).1 then some ⟨id, .other⟩ else none

/-- What happens to a store and those who listen to it. -/
inductive Action where
  | change (change : Change)
  | subscribe (reaction : Reaction)
  | unsubscribe (id : ListenerId)

def perform (store : Store) : Action → Store
  | .change change => store.apply change
  | .subscribe reaction => { store with feed := (store.feed.subscribe reaction).2 }
  | .unsubscribe id => { store with feed := store.feed.unsubscribe id }

def run (store : Store) (actions : List Action) : Store := actions.foldl perform store

/-- The event that is due for an action. -/
def due (store : Store) : Action → Option ChangeEvent
  | .change change => store.announces change
  | .subscribe _ | .unsubscribe _ => none

/-- The events that are due for actions, in order. -/
def log (store : Store) : List Action → List ChangeEvent
  | [] => []
  | action :: actions => (store.due action).toList ++ (store.perform action).log actions

/-- A change settles what is stored of the document that its event names. -/
def Change.Settles (before after : Store) (event : ChangeEvent) : Change → Prop
  | .add uri tree => event.kind = .added ∧ before.document? event.document = none ∧
    ∃ stored, StoredDocument.ofTree event.document uri tree = .ok stored ∧
      after.document? event.document = some stored
  | .replace id uri tree => event = ⟨id, .other⟩ ∧ before.contains id ∧
    ∃ stored, StoredDocument.ofTree id uri tree = .ok stored ∧ after.document? id = some stored
  | .touch id => event = ⟨id, .other⟩ ∧ before.contains id ∧ after.documents = before.documents
  | .remove id => event = ⟨id, .other⟩ ∧ before.contains id ∧ after.document? id = none

/-- A change that is refused leaves the documents and the feed alone. Otherwise one document is
settled and no other one changes; then the feed announces this, once. -/
structure Atomic (store : Store) (change : Change) : Prop where
  refused : store.announces change = none →
    (store.apply change).documents = store.documents ∧ (store.apply change).feed = store.feed
  announced : ∀ event, store.announces change = some event → ∃ changed : Store,
    change.Settles store changed event ∧
      (∀ doc, doc ≠ event.document → changed.document? doc = store.document? doc) ∧
      changed.feed = store.feed ∧ store.apply change = changed.announce event.document event.kind

variable {store : Store} {id : DocumentId} {stored : StoredDocument} {docs : List StoredDocument}

theorem document?_eq_none_of_lt (h : store.Sound) (hid : store.additions < id.raw) :
    store.document? id = none := by
  refine List.find?_eq_none.mpr fun d hd heq => ?_
  have hused := h.used d hd
  rw [of_decide_eq_true heq] at hused
  omega

theorem find?_replacing (hid : stored.doc.id = id) (hsome : (docs.find? (·.doc.id = id)).isSome) :
    (docs.map fun d => if d.doc.id = id then stored else d).find? (·.doc.id = id) =
      some stored := by
  induction docs with
  | nil => cases hsome
  | cons d docs ih =>
    rw [List.map_cons, List.find?_cons]
    by_cases hd : d.doc.id = id
    · simp [hd, hid]
    · rw [List.find?_cons, decide_eq_false hd] at hsome
      simp [hd, ih hsome]

namespace Atomic

variable {change : Change}

theorem of_refused (hannounces : store.announces change = none)
    (hdocuments : (store.apply change).documents = store.documents)
    (hfeed : (store.apply change).feed = store.feed) : store.Atomic change where
  refused _ := ⟨hdocuments, hfeed⟩
  announced event hevent := by
    rw [hannounces] at hevent
    cases hevent

theorem of_announced (event : ChangeEvent) (changed : Store)
    (hannounces : store.announces change = some event)
    (hsettles : change.Settles store changed event)
    (hothers : ∀ doc, doc ≠ event.document → changed.document? doc = store.document? doc)
    (hfeed : changed.feed = store.feed)
    (happly : store.apply change = changed.announce event.document event.kind) :
    store.Atomic change where
  refused hnone := by
    rw [hannounces] at hnone
    cases hnone
  announced other hother := by
    obtain rfl := Option.some_inj.mp (hannounces.symm.trans hother)
    exact ⟨changed, hsettles, hothers, hfeed, happly⟩

/-- One event goes to the feed if one is due, otherwise none. -/
theorem feed_apply (h : store.Atomic change) :
    (store.apply change).feed = store.feed.announceAll (store.announces change).toList := by
  cases hevent : store.announces change with
  | none => exact (h.refused hevent).2
  | some event =>
    obtain ⟨changed, -, -, hfeed, happly⟩ := h.announced event hevent
    rw [happly, ← hfeed]
    rfl

end Atomic

namespace Sound

theorem atomic_add (h : store.Sound) (uri : String) (tree : Tree) :
    store.Atomic (.add uri tree) := by
  let new : DocumentId := ⟨store.additions + 1⟩
  cases hstored : StoredDocument.ofTree new uri tree with
  | error fault =>
    have hadd : store.add uri tree =
        (.error fault, { store with additions := store.additions + 1 }) := by
      rw [add, show StoredDocument.ofTree _ _ _ = _ from hstored]
    refine .of_refused ?_ ?_ ?_
    · rw [announces, hadd]
    · rw [apply, hadd]
    · rw [apply, hadd]
  | ok stored =>
    let changed : Store :=
      { store with
        additions := store.additions + 1
        documents := store.documents ++ [stored] }
    have hadd : store.add uri tree = (.ok stored.doc, changed.announce new .added) := by
      rw [add, show StoredDocument.ofTree _ _ _ = _ from hstored]
    obtain ⟨hid, -⟩ := StoredDocument.doc_ofTree hstored
    have hnone : store.document? new = none := document?_eq_none_of_lt h (Nat.lt_succ_self _)
    refine .of_announced ⟨new, .added⟩ changed ?_
      ⟨rfl, hnone, stored, hstored, ?_⟩ (fun doc hdoc => find?_added hid hdoc) rfl ?_
    · rw [announces, hadd, ← hid]
    · show (store.documents ++ [stored]).find? (·.doc.id = new) = some stored
      rw [List.find?_append, show store.documents.find? _ = none from hnone]
      simp [hid]
    · rw [apply, hadd]

end Sound

theorem atomic_replace (store : Store) (id : DocumentId) (uri : String) (tree : Tree) :
    store.Atomic (.replace id uri tree) := by
  cases hstored : StoredDocument.ofTree id uri tree with
  | error fault =>
    have hreplace : store.replace id uri tree = (.error fault, store) := by rw [replace, hstored]
    refine .of_refused ?_ ?_ ?_
    · rw [announces, hreplace]
    · rw [apply, hreplace]
    · rw [apply, hreplace]
  | ok stored =>
    by_cases hcontains : store.contains id
    · let changed : Store :=
        { store with
          documents := store.documents.map fun d => if d.doc.id = id then stored else d }
      have hreplace : store.replace id uri tree =
          (.ok (some stored.doc), changed.announce id .other) := by
        rw [replace, hstored]
        exact if_pos hcontains
      obtain ⟨hid, -⟩ := StoredDocument.doc_ofTree hstored
      refine .of_announced ⟨id, .other⟩ changed ?_
        ⟨rfl, hcontains, stored, hstored, find?_replacing hid hcontains⟩
        (fun doc hdoc => find?_replaced hid hdoc) rfl ?_
      · rw [announces, hreplace]
      · rw [apply, hreplace]
    · have hreplace : store.replace id uri tree = (.ok none, store) := by
        rw [replace, hstored]
        exact if_neg hcontains
      refine .of_refused ?_ ?_ ?_
      · rw [announces, hreplace]
      · rw [apply, hreplace]
      · rw [apply, hreplace]

theorem atomic_touch (store : Store) (id : DocumentId) : store.Atomic (.touch id) := by
  by_cases hcontains : store.contains id
  · have htouch : store.touch id = (true, store.announce id .other) := if_pos hcontains
    refine .of_announced ⟨id, .other⟩ store ?_ ⟨rfl, hcontains, rfl⟩
      (fun _ _ => rfl) rfl ?_
    · rw [announces, htouch]
      rfl
    · rw [apply, htouch]
  · have htouch : store.touch id = (false, store) := if_neg hcontains
    refine .of_refused ?_ ?_ ?_
    · rw [announces, htouch]
      rfl
    · rw [apply, htouch]
    · rw [apply, htouch]

theorem atomic_remove (store : Store) (id : DocumentId) : store.Atomic (.remove id) := by
  by_cases hcontains : store.contains id
  · let changed : Store := { store with documents := store.documents.filter (·.doc.id ≠ id) }
    have hremove : store.remove id = (true, changed.announce id .other) := if_pos hcontains
    have hnone : changed.document? id = none := by
      refine List.find?_eq_none.mpr fun d hd heq => ?_
      exact of_decide_eq_true (List.mem_filter.mp hd).2 (of_decide_eq_true heq)
    refine .of_announced ⟨id, .other⟩ changed ?_ ⟨rfl, hcontains, hnone⟩
      (fun doc hdoc => find?_removed hdoc) rfl ?_
    · rw [announces, hremove]
      rfl
    · rw [apply, hremove]
  · have hremove : store.remove id = (false, store) := if_neg hcontains
    refine .of_refused ?_ ?_ ?_
    · rw [announces, hremove]
      rfl
    · rw [apply, hremove]
    · rw [apply, hremove]

/-- Every change of a sound store is atomic. -/
theorem Sound.atomic (h : store.Sound) (change : Change) : store.Atomic change := by
  cases change with
  | add uri tree => exact h.atomic_add uri tree
  | replace id uri tree => exact store.atomic_replace id uri tree
  | touch id => exact store.atomic_touch id
  | remove id => exact store.atomic_remove id

/-! ## Runs -/

namespace Sound

theorem perform (h : store.Sound) (action : Action) : (store.perform action).Sound := by
  cases action with
  | change change => exact h.applyAll [change]
  | subscribe reaction => exact h.congr rfl (Nat.le_refl _)
  | unsubscribe id => exact h.congr rfl (Nat.le_refl _)

theorem run (h : store.Sound) (actions : List Action) : (store.run actions).Sound := by
  induction actions generalizing store with
  | nil => exact h
  | cons action actions ih => exact ih (h.perform action)

end Sound

/-! ## Identifiers -/

/-- What is due for changes is announced. -/
theorem Sound.feed_applyAll (h : store.Sound) (changes : List Change) :
    (store.applyAll changes).feed =
      store.feed.announceAll (store.log (changes.map .change)) := by
  induction changes generalizing store with
  | nil => rfl
  | cons change changes ih =>
    have happly : (store.apply change).Sound := h.applyAll [change]
    rw [Store.applyAll, List.foldl_cons, ← Store.applyAll, ih happly, (h.atomic change).feed_apply,
      ← Feed.announceAll_append]
    rfl

/-- A change does not ask who listens or how often the store was scanned. -/
theorem apply_congr {other : Store} (hdocuments : store.documents = other.documents)
    (hadditions : store.additions = other.additions) (change : Change) :
    store.announces change = other.announces change ∧
      (store.apply change).documents = (other.apply change).documents ∧
      (store.apply change).additions = (other.apply change).additions := by
  obtain ⟨documents, additions, feed, scans, failNext⟩ := store
  obtain ⟨_, _, feed', scans', failNext'⟩ := other
  subst hdocuments hadditions
  cases change with
  | add uri tree =>
    simp only [announces, apply, add]
    cases StoredDocument.ofTree ⟨additions + 1⟩ uri tree with
    | error fault => exact ⟨rfl, rfl, rfl⟩
    | ok stored => exact ⟨rfl, rfl, rfl⟩
  | replace id uri tree =>
    simp only [announces, apply, replace, contains, document?]
    cases StoredDocument.ofTree id uri tree with
    | error fault => exact ⟨rfl, rfl, rfl⟩
    | ok stored =>
      by_cases hcontains : (documents.find? (·.doc.id = id)).isSome <;> simp [hcontains, announce]
  | touch id =>
    simp only [announces, apply, touch, contains, document?]
    by_cases hcontains : (documents.find? (·.doc.id = id)).isSome <;> simp [hcontains, announce]
  | remove id =>
    simp only [announces, apply, remove, contains, document?]
    by_cases hcontains : (documents.find? (·.doc.id = id)).isSome <;> simp [hcontains, announce]

theorem log_congr {other : Store} (hdocuments : store.documents = other.documents)
    (hadditions : store.additions = other.additions) (changes : List Change) :
    store.log (changes.map .change) = other.log (changes.map .change) := by
  induction changes generalizing store other with
  | nil => rfl
  | cons change changes ih =>
    obtain ⟨hannounces, hdocuments', hadditions'⟩ := apply_congr hdocuments hadditions change
    rw [List.map_cons, log, log, due, due, hannounces]
    exact congrArg _ (ih hdocuments' hadditions')

/-- A change neither scans nor asks for a scan to fail. -/
theorem scans_apply (store : Store) (change : Change) :
    (store.apply change).scans = store.scans := by
  cases change with
  | add uri tree =>
    rw [apply, add]
    split <;> rfl
  | replace id uri tree =>
    rw [apply, replace]
    split
    · rfl
    · split <;> rfl
  | touch id =>
    rw [apply, touch]
    split <;> rfl
  | remove id =>
    rw [apply, remove]
    split <;> rfl

theorem scans_applyAll (store : Store) (changes : List Change) :
    (store.applyAll changes).scans = store.scans := by
  induction changes generalizing store with
  | nil => rfl
  | cons change changes ih => exact (ih _).trans (store.scans_apply change)

end Store

/-! ## Changes around a scan -/

namespace Index

/-- The changes that come with a scan of some documents. -/
def changes (index : Index) (docs : DocumentSet) : List Store.Change :=
  docs.ids.flatMap index.before ++ index.after docs

/-- The changes that came with what led from one state of a store to another: there are some only
if there was a scan that did not fail. -/
def made (index : Index) (docs : DocumentSet) (before after : Store) : List Store.Change :=
  if after.scans = before.scans ∨ before.failNext then [] else index.changes docs

variable {index : Index} {request : ScanRequest} {docs : DocumentSet} {store : Store}

theorem store_read (index : Index) (request : ScanRequest) (docs : List DocumentId)
    (store : Store) :
    (index.read request docs store).2 = store.applyAll (docs.flatMap index.before) := by
  induction docs generalizing store with
  | nil => rfl
  | cons doc docs ih =>
    rw [read, ih, List.flatMap_cons, Store.applyAll, Store.applyAll, Store.applyAll,
      List.foldl_append]

/-- A scan counts; then nothing but the changes that come with it happens to the store. -/
theorem store_scan (index : Index) (request : ScanRequest) (docs : DocumentSet) (store : Store) :
    (index.scan request docs store).2.scans = store.scans + 1 ∧
      ∃ failNext, (index.scan request docs store).2 =
        Store.applyAll { store with scans := store.scans + 1, failNext }
          (index.made docs store (index.scan request docs store).2) := by
  by_cases hfail : store.failNext
  · have hscan : (index.scan request docs store).2 =
        { store with scans := store.scans + 1, failNext := false } := by
      rw [scan, if_pos hfail]
    rw [hscan, made, if_pos (.inr hfail)]
    exact ⟨rfl, false, rfl⟩
  · let counted : Store := { store with scans := store.scans + 1 }
    have hscan : (index.scan request docs store).2 = counted.applyAll (index.changes docs) := by
      rw [scan, if_neg hfail]
      show ((index.read request docs.ids counted).2).applyAll (index.after docs) = _
      rw [store_read, changes, Store.applyAll, Store.applyAll, Store.applyAll, List.foldl_append]
    have hscans : (index.scan request docs store).2.scans = store.scans + 1 := by
      rw [hscan, Store.scans_applyAll]
    refine ⟨hscans, store.failNext, ?_⟩
    rw [made, hscans, if_neg (not_or.mpr ⟨Nat.succ_ne_self _, hfail⟩), hscan]

end Index

end TreeAxes
