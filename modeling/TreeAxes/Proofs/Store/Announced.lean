import TreeAxes.Proofs.DocumentSet
import TreeAxes.Proofs.Store.Layout

/-!
# What a listener is told

A listener that stays in the feed finds every change in its mailbox until it takes the events out.
`Store.Leads` says so of two states of a store: a document that differs between them is named by
an event that waits in the mailbox.
-/

namespace TreeAxes

namespace Feed

/-- Identifiers are given in the order of registration. -/
def Numbered (feed : Feed) : Prop := ∀ l ∈ feed.listeners, l.id.raw < feed.registered

/-- A listener that stays and has a mailbox of its own. None leaves in its name. -/
structure Serves (feed : Feed) (id : ListenerId) : Prop where
  registered : ⟨id, id, .stay⟩ ∈ feed.listeners
  stays : ∀ l ∈ feed.listeners, l.id = id → l.reaction = .stay
  opened : ∃ m ∈ feed.mailboxes, m.owner = id
  numbered : id.raw < feed.registered

variable {feed : Feed} {id : ListenerId} {event e : ChangeEvent}

/-! ## Mailboxes -/

/-- Mailboxes that change but stay with their owners are found where they were. -/
theorem find?_owner_map {change : Mailbox → Mailbox} (h : ∀ m, (change m).owner = m.owner)
    (mailboxes : List Mailbox) (id : ListenerId) :
    (mailboxes.map change).find? (·.owner = id) = (mailboxes.find? (·.owner = id)).map change := by
  have hsame : ((fun m : Mailbox => decide (m.owner = id)) ∘ change) =
      fun m => decide (m.owner = id) := by
    funext m
    rw [Function.comp_apply, h]
  rw [List.find?_map, hsame]

theorem find?_deliver (feed : Feed) (mailbox id : ListenerId) (event : ChangeEvent) :
    (feed.deliver mailbox event).mailboxes.find? (·.owner = id) =
      (feed.mailboxes.find? (·.owner = id)).map fun m =>
        if m.owner = mailbox then { m with kept := event :: m.kept } else m :=
  find?_owner_map (fun m => by split <;> rfl) _ _

theorem find?_drain (feed : Feed) (mailbox id : ListenerId) :
    (feed.drain mailbox).2.mailboxes.find? (·.owner = id) =
      (feed.mailboxes.find? (·.owner = id)).map fun m =>
        if m.owner = mailbox then { m with kept := [] } else m :=
  find?_owner_map (fun m => by split <;> rfl) _ _

theorem isSome_find?_owner_iff :
    (feed.mailboxes.find? (·.owner = id)).isSome ↔ ∃ m ∈ feed.mailboxes, m.owner = id := by
  simp [List.find?_isSome]

theorem owner_of_find? {m : Mailbox} (h : feed.mailboxes.find? (·.owner = id) = some m) :
    m.owner = id := by
  simpa using List.find?_some h

/-- The mailbox of an owner that has one. -/
theorem exists_find?_owner (h : ∃ m ∈ feed.mailboxes, m.owner = id) :
    ∃ m, feed.mailboxes.find? (·.owner = id) = some m ∧ m.owner = id := by
  obtain ⟨m, hfound⟩ := Option.isSome_iff_exists.mp (isSome_find?_owner_iff.mpr h)
  exact ⟨m, hfound, owner_of_find? hfound⟩

theorem opened_deliver (h : ∃ m ∈ feed.mailboxes, m.owner = id) (mailbox : ListenerId)
    (event : ChangeEvent) : ∃ m ∈ (feed.deliver mailbox event).mailboxes, m.owner = id := by
  rw [← isSome_find?_owner_iff, find?_deliver, Option.isSome_map]
  exact isSome_find?_owner_iff.mpr h

theorem opened_drain (h : ∃ m ∈ feed.mailboxes, m.owner = id) (mailbox : ListenerId) :
    ∃ m ∈ (feed.drain mailbox).2.mailboxes, m.owner = id := by
  rw [← isSome_find?_owner_iff, find?_drain, Option.isSome_map]
  exact isSome_find?_owner_iff.mpr h

/-- Taking the events out of a mailbox leaves none there. -/
theorem events_drain (feed : Feed) (id : ListenerId) : (feed.drain id).2.events id = [] := by
  rw [events, find?_drain]
  cases hfound : feed.mailboxes.find? (·.owner = id) with
  | none => rfl
  | some m =>
    rw [Option.map_some, if_pos (owner_of_find? hfound)]
    rfl

theorem events_drain_of_ne {other : ListenerId} (h : other ≠ id) :
    (feed.drain id).2.events other = feed.events other := by
  rw [events, events, find?_drain]
  cases hfound : feed.mailboxes.find? (·.owner = other) with
  | none => rfl
  | some m =>
    rw [Option.map_some, if_neg (owner_of_find? hfound ▸ h)]

/-- Whatever a listener does besides, its mailbox is delivered to. -/
theorem mailboxes_call (event : ChangeEvent) (feed : Feed) (l : Listener) :
    (call event feed l).mailboxes = (feed.deliver l.mailbox event).mailboxes := by
  rw [call]
  cases l.reaction <;> rfl

theorem events_deliver (h : ∃ m ∈ feed.mailboxes, m.owner = id) (mailbox : ListenerId)
    (event : ChangeEvent) :
    (feed.deliver mailbox event).events id =
      feed.events id ++ if mailbox = id then [event] else [] := by
  obtain ⟨m, hfound, howner⟩ := exists_find?_owner h
  rw [events, events, find?_deliver, hfound, Option.map_some, howner]
  by_cases hmailbox : mailbox = id
  · simp [hmailbox]
  · simp [hmailbox, Ne.symm hmailbox]

/-- Each listener that is called puts the event into its mailbox once. -/
theorem events_foldl_call (h : ∃ m ∈ feed.mailboxes, m.owner = id) (ls : List Listener) :
    (∃ m ∈ (ls.foldl (call event) feed).mailboxes, m.owner = id) ∧
      (ls.foldl (call event) feed).events id =
        feed.events id ++ (ls.filter (·.mailbox = id)).map fun _ => event := by
  induction ls generalizing feed with
  | nil => exact ⟨h, (List.append_nil _).symm⟩
  | cons l ls ih =>
    have hmailboxes := mailboxes_call event feed l
    obtain ⟨hopened, hevents⟩ := ih (hmailboxes ▸ opened_deliver h l.mailbox event)
    have hcall : (call event feed l).events id = (feed.deliver l.mailbox event).events id := by
      rw [events, hmailboxes, events]
    refine ⟨hopened, ?_⟩
    rw [List.foldl_cons, hevents, hcall, events_deliver h, List.append_assoc, List.filter_cons]
    by_cases hmailbox : l.mailbox = id
    · simp [hmailbox]
    · simp [hmailbox]

/-! ## Listeners that are served -/

namespace Serves

theorem deliver (h : feed.Serves id) (mailbox : ListenerId) :
    (feed.deliver mailbox event).Serves id where
  registered := h.registered
  stays := h.stays
  numbered := h.numbered
  opened := opened_deliver h.opened mailbox event

theorem register (h : feed.Serves id) (mailbox : ListenerId) (reaction : Reaction) :
    (feed.register mailbox reaction).Serves id where
  registered := List.mem_append_left _ h.registered
  stays := by
    intro l hl hid
    obtain hl | hl := List.mem_append.mp hl
    · exact h.stays l hl hid
    · rw [List.mem_singleton.mp hl] at hid
      rw [← hid] at h
      exact absurd h.numbered (Nat.lt_irrefl _)
  opened := h.opened
  numbered := Nat.lt_succ_of_lt h.numbered

theorem unsubscribe (h : feed.Serves id) {other : ListenerId} (hother : other ≠ id) :
    (feed.unsubscribe other).Serves id where
  registered := List.mem_filter.mpr ⟨h.registered, decide_eq_true hother.symm⟩
  stays l hl := h.stays l (List.mem_filter.mp hl).1
  opened := h.opened
  numbered := h.numbered

theorem call (h : feed.Serves id) {l : Listener} (hstays : l.id = id → l.reaction = .stay) :
    (call event feed l).Serves id := by
  have hdeliver := @deliver feed id event h l.mailbox
  rw [Feed.call]
  cases hreaction : l.reaction with
  | stay => exact hdeliver
  | recruit => exact hdeliver.register _ _
  | leave =>
    refine hdeliver.unsubscribe fun hid => ?_
    rw [hstays hid] at hreaction
    cases hreaction

theorem foldl_call (h : feed.Serves id) {ls : List Listener}
    (hstays : ∀ l ∈ ls, l.id = id → l.reaction = .stay) :
    (ls.foldl (Feed.call event) feed).Serves id :=
  List.foldlRecOn ls (Feed.call event) (motive := (·.Serves id)) h fun _ hserves l hl =>
    hserves.call (hstays l hl)

/-- All listeners that are registered have an event that is announced; no event is lost. -/
theorem announce (h : feed.Serves id) :
    (feed.announce event).Serves id ∧ (∀ e ∈ feed.events id, e ∈ (feed.announce event).events id) ∧
      event ∈ (feed.announce event).events id := by
  obtain ⟨-, hevents⟩ := @events_foldl_call feed id event h.opened feed.listeners
  have hcalled : ⟨id, id, .stay⟩ ∈ feed.listeners.filter (·.mailbox = id) :=
    List.mem_filter.mpr ⟨h.registered, decide_eq_true rfl⟩
  rw [Feed.announce, hevents]
  refine ⟨h.foldl_call h.stays, fun e he => List.mem_append_left _ he, ?_⟩
  exact List.mem_append_right _ (List.mem_map.mpr ⟨_, hcalled, rfl⟩)

end Serves

/-- A new listener has a number of its own, so it is served. -/
theorem Numbered.subscribe (h : feed.Numbered) :
    (feed.subscribe .stay).2.Serves (feed.subscribe .stay).1 where
  registered := List.mem_append_right _ (List.mem_singleton.mpr rfl)
  stays := by
    intro l hl hid
    obtain hl | hl := List.mem_append.mp hl
    · have hlt := h l hl
      rw [hid] at hlt
      exact absurd hlt (Nat.lt_irrefl _)
    · rw [List.mem_singleton.mp hl]
  opened := ⟨_, List.mem_append_right _ (List.mem_singleton.mpr rfl), rfl⟩
  numbered := Nat.lt_succ_self _

theorem Serves.drain (h : feed.Serves id) : (feed.drain id).2.Serves id where
  registered := h.registered
  stays := h.stays
  numbered := h.numbered
  opened := opened_drain h.opened id

namespace Numbered

theorem register (h : feed.Numbered) (mailbox : ListenerId) (reaction : Reaction) :
    (feed.register mailbox reaction).Numbered := by
  intro l hl
  obtain hl | hl := List.mem_append.mp hl
  · exact Nat.lt_succ_of_lt (h l hl)
  · rw [List.mem_singleton.mp hl]
    exact Nat.lt_succ_self _

theorem call (h : feed.Numbered) (l : Listener) : (call event feed l).Numbered := by
  rw [Feed.call]
  cases l.reaction with
  | stay => exact h
  | leave => exact fun other hother => h other (List.mem_filter.mp hother).1
  | recruit => exact Numbered.register h _ _

theorem announce (h : feed.Numbered) : (feed.announce event).Numbered := by
  rw [Feed.announce]
  exact List.foldlRecOn feed.listeners (Feed.call event) h fun _ hnumbered l _ => hnumbered.call l

end Numbered

end Feed

namespace Store

/-- From one state of a store to a later one, a listener lost no event and was told of every
document that differs. If it has no event, nothing was changed. -/
structure Leads (id : ListenerId) (before after : Store) : Prop where
  kept : ∀ e ∈ before.feed.events id, e ∈ after.feed.events id
  told : ∀ doc, after.document? doc = before.document? doc ∨
    ∃ e ∈ after.feed.events id, e.document = doc
  still : after.feed.events id = [] → after.documents = before.documents

namespace Leads

variable {id : ListenerId} {store between after : Store}

theorem refl (store : Store) : store.Leads id store :=
  ⟨fun _ he => he, fun _ => .inl rfl, fun _ => rfl⟩

theorem trans (h : Leads id store between) (h' : Leads id between after) :
    Leads id store after where
  kept e he := h'.kept e (h.kept e he)
  told doc := by
    obtain hlater | hlater := h'.told doc
    · obtain hsooner | ⟨e, he, hdoc⟩ := h.told doc
      · exact .inl (hlater.trans hsooner)
      · exact .inr ⟨e, h'.kept e he, hdoc⟩
    · exact .inr hlater
  still hnone := by
    have hsooner : between.feed.events id = [] := by
      refine List.eq_nil_iff_forall_not_mem.mpr fun e he => ?_
      have hlater := h'.kept e he
      rw [hnone] at hlater
      cases hlater
    exact (h'.still hnone).trans (h.still hsooner)

/-- Nothing but the documents and the mailbox counts. -/
theorem of_eq (hdocuments : after.documents = store.documents) (hfeed : after.feed = store.feed) :
    Leads id store after where
  kept := hfeed ▸ fun _ he => he
  told doc := .inl (by rw [document?, document?, hdocuments])
  still _ := hdocuments

end Leads

variable {id : ListenerId} {store : Store} {docs : List StoredDocument} {stored : StoredDocument}
  {changed doc : DocumentId}

theorem find?_added (hid : stored.doc.id = changed) (hdoc : doc ≠ changed) :
    (docs ++ [stored]).find? (·.doc.id = doc) = docs.find? (·.doc.id = doc) := by
  have hnone : [stored].find? (·.doc.id = doc) = none := by
    simpa [hid] using hdoc.symm
  rw [List.find?_append, hnone, Option.or_none]

theorem find?_replaced (hid : stored.doc.id = changed) (hdoc : doc ≠ changed) :
    (docs.map fun d => if d.doc.id = changed then stored else d).find? (·.doc.id = doc) =
      docs.find? (·.doc.id = doc) := by
  induction docs with
  | nil => rfl
  | cons d docs ih =>
    rw [List.map_cons, List.find?_cons, List.find?_cons, ih]
    by_cases hd : d.doc.id = changed
    · simp [hd, hid, hdoc.symm]
    · simp [hd]

theorem find?_removed (hdoc : doc ≠ changed) :
    (docs.filter (·.doc.id ≠ changed)).find? (·.doc.id = doc) = docs.find? (·.doc.id = doc) := by
  rw [List.find?_filter]
  congr 1
  funext d
  by_cases hd : d.doc.id = doc
  · simp [hd, hdoc]
  · simp [hd]

/-- A change does nothing, or it changes one document and announces that. -/
theorem apply_cases (store : Store) (change : Change) :
    ((store.apply change).documents = store.documents ∧ (store.apply change).feed = store.feed) ∨
      ∃ event, (store.apply change).feed = store.feed.announce event ∧
        ∀ doc, doc ≠ event.document →
          (store.apply change).document? doc = store.document? doc := by
  cases change with
  | add uri tree =>
    show ((store.add uri tree).2.documents = _ ∧ _) ∨ _
    rw [apply, add]
    split
    · exact .inl ⟨rfl, rfl⟩
    · next stored hstored =>
      exact .inr ⟨_, rfl, fun doc hdoc =>
        find?_added (StoredDocument.doc_ofTree hstored).1 hdoc⟩
  | replace id uri tree =>
    rw [apply, replace]
    split
    · exact .inl ⟨rfl, rfl⟩
    · next stored hstored =>
      split
      · exact .inr ⟨_, rfl, fun doc hdoc =>
          find?_replaced (StoredDocument.doc_ofTree hstored).1 hdoc⟩
      · exact .inl ⟨rfl, rfl⟩
  | touch id =>
    rw [apply, touch]
    split
    · exact .inr ⟨_, rfl, fun _ _ => rfl⟩
    · exact .inl ⟨rfl, rfl⟩
  | remove id =>
    rw [apply, remove]
    split
    · exact .inr ⟨_, rfl, fun doc hdoc => find?_removed hdoc⟩
    · exact .inl ⟨rfl, rfl⟩

/-- Whoever is served is told of every change. -/
theorem leads_apply (h : store.feed.Serves id) (change : Change) :
    (store.apply change).feed.Serves id ∧ Leads id store (store.apply change) := by
  obtain ⟨hdocuments, hfeed⟩ | ⟨event, hfeed, hothers⟩ := store.apply_cases change
  · exact ⟨hfeed ▸ h, Leads.of_eq hdocuments hfeed⟩
  · obtain ⟨hserves, hkept, htold⟩ := @Feed.Serves.announce _ _ event h
    refine ⟨hfeed ▸ hserves, hfeed ▸ hkept, fun doc => ?_, fun hnone => ?_⟩
    · by_cases hdoc : doc = event.document
      · exact .inr ⟨event, hfeed ▸ htold, hdoc.symm⟩
      · exact .inl (hothers doc hdoc)
    · rw [← hfeed, hnone] at htold
      cases htold

theorem leads_applyAll (h : store.feed.Serves id) (changes : List Change) :
    (store.applyAll changes).feed.Serves id ∧ Leads id store (store.applyAll changes) := by
  induction changes generalizing store with
  | nil => exact ⟨h, .refl store⟩
  | cons change changes ih =>
    obtain ⟨hserves, hleads⟩ := leads_apply h change
    obtain ⟨hserves', hleads'⟩ := ih hserves
    exact ⟨hserves', hleads.trans hleads'⟩

theorem numbered_apply (h : store.feed.Numbered) (change : Change) :
    (store.apply change).feed.Numbered := by
  obtain ⟨-, hfeed⟩ | ⟨event, hfeed, -⟩ := store.apply_cases change
  · exact hfeed ▸ h
  · exact hfeed ▸ h.announce

end Store

/-! ## Changes during a scan -/

namespace Index

variable {id : ListenerId} {store : Store} {request : ScanRequest}

/-- Each document is read in some state of the store, and whoever is served is told of what
changes after that. -/
theorem read_spec (index : Index) (request : ScanRequest) {docs : List DocumentId}
    (hdocs : docs.Nodup) (h : store.feed.Serves id) :
    (index.read request docs store).2.feed.Serves id ∧
      Store.Leads id store (index.read request docs store).2 ∧
      ∃ seen : DocumentId → Store,
        (index.read request docs store).1 =
          docs.flatMap (fun doc => (seen doc).hitsIn request doc) ∧
        ∀ doc, Store.Leads id (seen doc) (index.read request docs store).2 := by
  induction docs generalizing store with
  | nil => exact ⟨h, .refl store, fun _ => store, rfl, fun _ => .refl store⟩
  | cons doc docs ih =>
    obtain ⟨hnot, hdocs⟩ := List.nodup_cons.mp hdocs
    obtain ⟨hserves, hleads⟩ := Store.leads_applyAll h (index.before doc)
    obtain ⟨hserves, hlater, seen, hfound, hseen⟩ := ih hdocs hserves
    refine ⟨hserves, hleads.trans hlater,
      fun d => if d = doc then store.applyAll (index.before doc) else seen d, ?_, fun d => ?_⟩
    · have hrest : docs.flatMap (fun d => (seen d).hitsIn request d) =
          docs.flatMap fun d =>
            (if d = doc then store.applyAll (index.before doc) else seen d).hitsIn request d := by
        refine List.flatMap_congr fun d hd => ?_
        rw [if_neg fun heq : d = doc => hnot (heq ▸ hd)]
      rw [List.flatMap_cons, ← hrest, ← hfound]
      simp only [↓reduceIte]
      rfl
    · show Store.Leads id (if d = doc then _ else seen d) _
      split
      · exact hlater
      · exact hseen d

/-- A scan that does not fail finds in each document what some state of the store held there. -/
theorem scan_spec (index : Index) (request : ScanRequest) (docs : DocumentSet)
    (h : store.feed.Serves id) :
    (index.scan request docs store).2.feed.Serves id ∧
      Store.Leads id store (index.scan request docs store).2 ∧
      ∀ found, (index.scan request docs store).1 = .ok found → ∃ seen : DocumentId → Store,
        found = .ofList (docs.ids.flatMap fun doc => (seen doc).hitsIn request doc) ∧
        ∀ doc, Store.Leads id (seen doc) (index.scan request docs store).2 := by
  have hnodup : docs.ids.Nodup :=
    docs.pairwise_ids.imp fun {a b} hlt heq => Nat.ne_of_lt hlt (congrArg DocumentId.raw heq)
  let counted : Store := { store with scans := store.scans + 1 }
  have hcounted : counted.feed.Serves id := h
  have hstart : Store.Leads id store counted := .of_eq rfl rfl
  obtain ⟨hserves, hleads, seen, hfound, hseen⟩ := index.read_spec request hnodup hcounted
  rw [scan]
  split
  · exact ⟨h, .of_eq rfl rfl, nofun⟩
  · generalize index.read request docs.ids _ = outcome at hserves hleads hfound hseen ⊢
    obtain ⟨later, final⟩ := outcome
    obtain ⟨hserves, hafter⟩ := Store.leads_applyAll hserves (index.after docs)
    refine ⟨hserves, hstart.trans (hleads.trans hafter), ?_⟩
    rintro found ⟨⟩
    exact ⟨seen, congrArg NodeSet.ofList hfound, fun doc => (hseen doc).trans hafter⟩

end Index

end TreeAxes
