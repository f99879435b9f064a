import TreeAxes.Proofs.Store.Delivery
import TreeAxes.Step.Basic

/-!
# Ledgers

Steps and others listen to one feed. A ledger is kept of what they do: which listeners the others
have registered, which identifiers were given, which events were announced and which of them each
step took in. The feed balances with the ledger if it serves exactly those who are registered, and
if what waits for a step is what it did not take in yet.
-/

namespace TreeAxes

/-- A step that shares a feed with others. -/
structure Member where
  step : Step
  /-- The events that it took in, all times together. -/
  heard : List ChangeEvent
  /-- The number of events that were announced before it was first evaluated. -/
  since : Option Nat

structure Ledger where
  /-- The steps in the order of their making; one that is dropped leaves its place empty. -/
  members : List (Option Member)
  /-- The listeners of others that are registered. -/
  outside : List Listener
  /-- The identifiers that were given to others. -/
  given : List ListenerId
  /-- The identifiers that were given to steps. -/
  taken : List ListenerId
  /-- The events that were announced. -/
  log : List ChangeEvent

namespace Ledger

def empty : Ledger := ⟨[], [], [], [], []⟩

/-- The number of steps that were evaluated and are not dropped. -/
def evaluated (l : Ledger) : Nat := l.members.countP fun m => m.any (·.since.isSome)

def settle (l : Ledger) (place : Nat) (m : Option Member) : Ledger :=
  { l with members := l.members.set place m }

/-- Among the others, an announcement makes some leave and some register others. -/
def announced (l : Ledger) (event : ChangeEvent) : Ledger :=
  let recruits := Feed.recruits (l.given.length + l.taken.length) l.outside
  { l with
    outside := l.outside.filter (·.reaction ≠ .leave) ++ recruits
    given := l.given ++ recruits.map (·.id)
    log := l.log ++ [event] }

def announcedAll (l : Ledger) (events : List ChangeEvent) : Ledger := events.foldl announced l

theorem perm_given_append (l : Ledger) (ids : List ListenerId) :
    (l.given ++ ids ++ l.taken).Perm (l.given ++ l.taken ++ ids) := by
  rw [List.append_assoc, List.append_assoc]
  exact List.perm_append_comm.append_left _

end Ledger

/-- A step listens from its first evaluation on. What it took in and what waits for it is what was
announced since. -/
inductive Member.Accords (m : Member) (feed : Feed) (taken : List ListenerId)
    (log : List ChangeEvent) : Prop where
  | unheard (hsince : m.since = none) (hlistener : m.step.listener = none) (hheard : m.heard = [])
  | listening (first : Nat) (id : ListenerId) (hsince : m.since = some first)
      (hlistener : m.step.listener = some id) (htaken : id ∈ taken) (htells : feed.Tells id)
      (hfirst : first ≤ log.length) (hheard : m.heard ++ feed.events id = log.drop first)

/-- The feed and the ledger agree. -/
structure Ledger.Balances (l : Ledger) (feed : Feed) : Prop where
  ordered : feed.Ordered
  counted : feed.registered = l.given.length + l.taken.length
  used : ∀ id ∈ l.given ++ l.taken, id.raw < feed.registered
  distinct : (l.given ++ l.taken).Nodup
  outside : l.outside = feed.listeners.filter (·.id ∉ l.taken)
  inside : (feed.listeners.filter (·.id ∈ l.taken)).length = l.evaluated
  stay : ∀ k ∈ feed.listeners, k.id ∈ l.taken → k.reaction = .stay
  members : ∀ (place : Nat) (m : Member), l.members[place]? = some (some m) →
    m.Accords feed l.taken l.log
  apart : ∀ (place place' : Nat) (m m' : Member) (id : ListenerId),
    l.members[place]? = some (some m) → l.members[place']? = some (some m') →
      m.step.listener = some id → m'.step.listener = some id → place = place'

variable {l : Ledger} {feed later : Feed} {m own : Member} {place : Nat} {id : ListenerId}

namespace Member.Accords

variable {taken : List ListenerId} {log : List ChangeEvent}

/-- What is announced waits for the step. -/
theorem after (h : m.Accords feed taken log) (events : List ChangeEvent)
    (htold : ∀ id, m.step.listener = some id → feed.Tells id →
      later.Tells id ∧ later.events id = feed.events id ++ events) :
    m.Accords later taken (log ++ events) := by
  cases h with
  | unheard hsince hlistener hheard => exact .unheard hsince hlistener hheard
  | listening first id hsince hlistener htaken htells hfirst hheard =>
    obtain ⟨htells', hevents⟩ := htold id hlistener htells
    refine .listening first id hsince hlistener htaken htells' ?_ ?_
    · rw [List.length_append]
      omega
    · rw [hevents, ← List.append_assoc, hheard, List.drop_append_of_le_length hfirst]

/-- Without an announcement nothing new waits for the step. -/
theorem unannounced (h : m.Accords feed taken log)
    (htold : ∀ id, m.step.listener = some id → feed.Tells id →
      later.Tells id ∧ later.events id = feed.events id) : m.Accords later taken log := by
  have hafter := h.after [] fun id hid htells => by
    rw [List.append_nil]
    exact htold id hid htells
  rwa [List.append_nil] at hafter

theorem mono {taken' : List ListenerId} (h : m.Accords feed taken log)
    (hsub : ∀ id ∈ taken, id ∈ taken') : m.Accords feed taken' log := by
  cases h with
  | unheard hsince hlistener hheard => exact .unheard hsince hlistener hheard
  | listening first id hsince hlistener htaken htells hfirst hheard =>
    exact .listening first id hsince hlistener (hsub id htaken) htells hfirst hheard

theorem tells (h : m.Accords feed taken log) (hid : m.step.listener = some id) :
    feed.Tells id ∧ id ∈ taken := by
  cases h with
  | unheard hsince hlistener hheard => cases hlistener.symm.trans hid
  | listening first other hsince hlistener htaken htells hfirst hheard =>
    obtain rfl := Option.some_inj.mp (hlistener.symm.trans hid)
    exact ⟨htells, htaken⟩

theorem since_eq_none (h : m.Accords feed taken log) (hid : m.step.listener = none) :
    m.since = none ∧ m.heard = [] := by
  cases h with
  | unheard hsince hlistener hheard => exact ⟨hsince, hheard⟩
  | listening first id hsince hlistener htaken htells hfirst hheard =>
    cases hlistener.symm.trans hid

theorem since_eq_some (h : m.Accords feed taken log) (hid : m.step.listener = some id) :
    ∃ first, m.since = some first := by
  cases h with
  | unheard hsince hlistener hheard => cases hlistener.symm.trans hid
  | listening first other hsince => exact ⟨first, hsince⟩

end Member.Accords

namespace Ledger.Balances

theorem empty : Ledger.empty.Balances .empty where
  ordered := ⟨.nil, nofun, nofun⟩
  counted := rfl
  used _ hid := by cases hid
  distinct := List.nodup_nil
  outside := rfl
  inside := rfl
  stay _ hk := by cases hk
  members _ _ hm := by cases hm
  apart _ _ _ _ _ hm := by cases hm

theorem lt_of_taken (h : l.Balances feed) (hid : id ∈ l.taken) : id.raw < feed.registered :=
  h.used id (List.mem_append_right _ hid)

/-- An identifier that the feed gives next was not given to a step. -/
theorem not_mem_taken (h : l.Balances feed) (hid : feed.registered ≤ id.raw) : id ∉ l.taken :=
  fun htaken => absurd (h.lt_of_taken htaken) (Nat.not_lt.mpr hid)

/-- Identifiers that the feed gives next differ from all that were given. -/
theorem nodup_append (h : l.Balances feed) {ids : List ListenerId} (hids : ids.Nodup)
    (hfresh : ∀ id ∈ ids, feed.registered ≤ id.raw) : (l.given ++ l.taken ++ ids).Nodup := by
  refine List.nodup_append.mpr ⟨h.distinct, hids, fun id hid other hother heq => ?_⟩
  have hlt := h.used id hid
  rw [heq] at hlt
  exact Nat.not_lt.mpr (hfresh other hother) hlt

theorem used_append (h : l.Balances feed) {ids : List ListenerId} {next : Nat}
    (hle : feed.registered ≤ next) (hids : ∀ id ∈ ids, id.raw < next) :
    ∀ id ∈ l.given ++ l.taken ++ ids, id.raw < next := by
  intro id hid
  obtain hid | hid := List.mem_append.mp hid
  · exact Nat.lt_of_lt_of_le (h.used id hid) hle
  · exact hids id hid

/-! ## Announcements -/

theorem recruits_eq (h : l.Balances feed) :
    Feed.recruits (l.given.length + l.taken.length) l.outside =
      Feed.recruits feed.registered feed.listeners := by
  rw [← h.counted, h.outside]
  refine Feed.recruits_filter fun k hk hrecruit => decide_eq_true fun htaken => ?_
  rw [h.stay k hk htaken] at hrecruit
  cases hrecruit

theorem announce (h : l.Balances feed) (event : ChangeEvent) :
    (l.announced event).Balances (feed.announce event) := by
  obtain ⟨hlisteners, hregistered⟩ := h.ordered.listeners_announce event
  have hordered := h.ordered.announce event
  have hrecruits := h.recruits_eq
  rw [announced, hrecruits]
  generalize hnew : Feed.recruits feed.registered feed.listeners = recruits at *
  have hfresh : ∀ r ∈ recruits,
      feed.registered ≤ r.id.raw ∧ r.id.raw < feed.registered + recruits.length := by
    intro r hr
    rw [← hnew] at hr ⊢
    obtain ⟨hle, hlt, -⟩ := Feed.mem_recruits hr
    exact ⟨hle, hlt⟩
  have hids : (recruits.map (·.id)).Nodup := by
    have hnodup := hordered.nodup
    rw [hlisteners, List.map_append, List.nodup_append] at hnodup
    exact hnodup.2.1
  have hperm := l.perm_given_append (recruits.map (·.id))
  exact {
    ordered := hordered
    counted := by
      rw [hregistered, h.counted]
      simp only [List.length_append, List.length_map]
      omega
    used := fun id hid => by
      rw [hregistered]
      refine h.used_append (Nat.le_add_right _ _) (fun id hid => ?_) id (hperm.mem_iff.mp hid)
      obtain ⟨r, hr, rfl⟩ := List.mem_map.mp hid
      exact (hfresh r hr).2
    distinct := by
      refine hperm.nodup_iff.mpr (h.nodup_append hids fun id hid => ?_)
      obtain ⟨r, hr, rfl⟩ := List.mem_map.mp hid
      exact (hfresh r hr).1
    outside := by
      have hall : recruits.filter (·.id ∉ l.taken) = recruits :=
        List.filter_eq_self.mpr fun r hr => decide_eq_true (h.not_mem_taken (hfresh r hr).1)
      rw [hlisteners, List.filter_append, hall, List.filter_comm, ← h.outside]
    inside := by
      have hnone : recruits.filter (·.id ∈ l.taken) = [] := by
        refine List.filter_eq_nil_iff.mpr fun r hr htaken => ?_
        exact h.not_mem_taken (hfresh r hr).1 (of_decide_eq_true htaken)
      have hsame : (feed.listeners.filter (·.id ∈ l.taken)).filter (·.reaction ≠ .leave) =
          feed.listeners.filter (·.id ∈ l.taken) := by
        refine List.filter_eq_self.mpr fun k hk => ?_
        obtain ⟨hk, htaken⟩ := List.mem_filter.mp hk
        rw [h.stay k hk (of_decide_eq_true htaken)]
        rfl
      rw [hlisteners, List.filter_append, hnone, List.append_nil, List.filter_comm, hsame]
      exact h.inside
    stay := fun k hk htaken => by
      rw [hlisteners] at hk
      obtain hk | hk := List.mem_append.mp hk
      · exact h.stay k (List.mem_filter.mp hk).1 htaken
      · exact absurd htaken (h.not_mem_taken (hfresh k hk).1)
    members := fun place m hm => by
      refine (h.members place m hm).after [event] fun id _ htells => ?_
      exact htells.announce h.ordered event
    apart := h.apart }

theorem announceAll (h : l.Balances feed) (events : List ChangeEvent) :
    (l.announcedAll events).Balances (feed.announceAll events) := by
  induction events generalizing l feed with
  | nil => exact h
  | cons event events ih => exact ih (h.announce event)

/-! ## Others -/

theorem subscribe (h : l.Balances feed) (reaction : Reaction) :
    { l with
      outside := l.outside ++ [⟨⟨feed.registered⟩, ⟨feed.registered⟩, reaction⟩]
      given := l.given ++ [⟨feed.registered⟩] : Ledger }.Balances
        (feed.subscribe reaction).2 where
  ordered := h.ordered.subscribe reaction
  counted := by
    show feed.registered + 1 = (l.given ++ [_]).length + l.taken.length
    rw [h.counted, List.length_append, List.length_singleton]
    omega
  used id hid := by
    refine h.used_append (Nat.le_succ _) (fun id hid => ?_) id
      ((l.perm_given_append _).mem_iff.mp hid)
    rw [List.mem_singleton.mp hid]
    exact Nat.lt_succ_self _
  distinct := by
    refine (l.perm_given_append _).nodup_iff.mpr
      (h.nodup_append (List.nodup_singleton _) fun id hid => ?_)
    exact Nat.le_of_eq (congrArg ListenerId.raw (List.mem_singleton.mp hid)).symm
  outside := by
    have hnew : (⟨feed.registered⟩ : ListenerId) ∉ l.taken := h.not_mem_taken (Nat.le_refl _)
    rw [Feed.subscribe_listeners, List.filter_append, ← h.outside]
    simp [hnew]
  inside := by
    have hnew : (⟨feed.registered⟩ : ListenerId) ∉ l.taken := h.not_mem_taken (Nat.le_refl _)
    rw [Feed.subscribe_listeners, List.filter_append, List.length_append, h.inside]
    simp [hnew, evaluated]
  stay k hk htaken := by
    obtain hk | hk := List.mem_append.mp hk
    · exact h.stay k hk htaken
    · rw [List.mem_singleton.mp hk] at htaken
      exact absurd htaken (h.not_mem_taken (Nat.le_refl _))
  members place m hm :=
    (h.members place m hm).unannounced fun id _ htells =>
      ⟨htells.subscribe h.ordered reaction, Feed.events_subscribe_of_opened htells.opened _⟩
  apart := h.apart

/-- Others withdraw what was given to them. -/
theorem withdraw (h : l.Balances feed) (hid : id ∈ l.given) :
    { l with outside := l.outside.filter (·.id ≠ id) : Ledger }.Balances (feed.unsubscribe id) where
  ordered := h.ordered.unsubscribe id
  counted := h.counted
  used := h.used
  distinct := h.distinct
  outside := by
    rw [h.outside, List.filter_comm]
    rfl
  inside := by
    have hsame : (feed.listeners.filter (·.id ∈ l.taken)).filter (·.id ≠ id) =
        feed.listeners.filter (·.id ∈ l.taken) := by
      refine List.filter_eq_self.mpr fun k hk => decide_eq_true fun heq => ?_
      have htaken := of_decide_eq_true (List.mem_filter.mp hk).2
      exact (List.nodup_append.mp h.distinct).2.2 id hid _ htaken heq.symm
    rw [Feed.unsubscribe, List.filter_comm, hsame]
    exact h.inside
  stay k hk htaken := h.stay k (List.mem_filter.mp hk).1 htaken
  members place m hm := by
    refine (h.members place m hm).unannounced fun other hother htells =>
      ⟨htells.unsubscribe fun heq => ?_, rfl⟩
    have htaken := ((h.members place m hm).tells hother).2
    exact (List.nodup_append.mp h.distinct).2.2 id hid _ htaken heq
  apart := h.apart

/-! ## Steps -/

/-- A new step does not listen. -/
theorem build (h : l.Balances feed) {step : Step} (hstep : step.listener = none) :
    { l with members := l.members ++ [some ⟨step, [], none⟩] : Ledger }.Balances feed where
  ordered := h.ordered
  counted := h.counted
  used := h.used
  distinct := h.distinct
  outside := h.outside
  inside := by
    rw [h.inside, evaluated, evaluated, List.countP_append]
    rfl
  stay := h.stay
  members place m hm := by
    rw [List.getElem?_append] at hm
    split at hm
    · exact h.members place m hm
    · obtain rfl := Option.some_inj.mp (List.mem_singleton.mp (List.mem_of_getElem? hm))
      exact .unheard rfl hstep rfl
  apart place place' m m' id hm hm' hid hid' := by
    rw [List.getElem?_append] at hm hm'
    split at hm
    · split at hm'
      · exact h.apart place place' m m' id hm hm' hid hid'
      · obtain rfl := Option.some_inj.mp (List.mem_singleton.mp (List.mem_of_getElem? hm'))
        cases hstep.symm.trans hid'
    · obtain rfl := Option.some_inj.mp (List.mem_singleton.mp (List.mem_of_getElem? hm))
      cases hstep.symm.trans hid

theorem evaluated_settle (hm : l.members[place]? = some (some own)) (m : Option Member) :
    (l.settle place m).evaluated + (if own.since.isSome then 1 else 0) =
      l.evaluated + if m.any (·.since.isSome) then 1 else 0 := by
  obtain ⟨hlt, hown⟩ := List.getElem?_eq_some_iff.mp hm
  rw [evaluated, settle, List.countP_set hlt, hown, evaluated]
  have hpos : own.since.isSome → 0 < l.members.countP fun m => m.any (·.since.isSome) :=
    fun hsome => List.countP_pos_iff.mpr ⟨some own, List.mem_of_getElem? hm, hsome⟩
  by_cases hsome : own.since.isSome
  · have hpos := hpos hsome
    simp only [Option.any_some, hsome, if_true]
    omega
  · simp only [Option.any_some, hsome, if_false, Bool.false_eq_true]
    omega

theorem getElem?_settle (hm : l.members[place]? = some (some own)) (m : Option Member) (i : Nat) :
    (l.settle place m).members[i]? = if place = i then some m else l.members[i]? := by
  rw [settle, List.getElem?_set, if_pos (List.getElem?_eq_some_iff.mp hm).1]

/-- No two steps have one listener, even if a step changes, as long as it does not have the listener
of another one then. -/
theorem apart_settle (h : l.Balances feed) (hm : l.members[place]? = some (some own))
    {m : Option Member} (hlistener : ∀ m' ∈ m, ∀ (i : Nat) (other : Member) (id : ListenerId),
      l.members[i]? = some (some other) → m'.step.listener = some id →
        other.step.listener = some id → i = place)
    (i j : Nat) (m₁ m₂ : Member) (id : ListenerId)
    (hi : (l.settle place m).members[i]? = some (some m₁))
    (hj : (l.settle place m).members[j]? = some (some m₂))
    (hid₁ : m₁.step.listener = some id) (hid₂ : m₂.step.listener = some id) : i = j := by
  rw [getElem?_settle hm] at hi hj
  split at hi
  · next heqi =>
    split at hj
    · next heqj => exact heqi.symm.trans heqj
    · exact heqi.symm.trans (hlistener m₁ (Option.some_inj.mp hi) j m₂ id hj hid₁ hid₂).symm
  · split at hj
    · next heqj => exact (hlistener m₂ (Option.some_inj.mp hj) i m₁ id hi hid₂ hid₁).trans heqj
    · exact h.apart i j m₁ m₂ id hi hj hid₁ hid₂

/-- A step that keeps its listener may change, and take events out of its mailbox. -/
theorem settle (h : l.Balances feed) (hm : l.members[place]? = some (some own))
    (hsince : m.since = own.since) (hlistener : m.step.listener = own.step.listener)
    (hordered : later.Ordered) (hlisteners : later.listeners = feed.listeners)
    (hregistered : later.registered = feed.registered) (hown : m.Accords later l.taken l.log)
    (hothers : ∀ id, own.step.listener ≠ some id → feed.Tells id →
      later.Tells id ∧ later.events id = feed.events id) :
    (l.settle place (some m)).Balances later where
  ordered := hordered
  counted := hregistered.trans h.counted
  used id hid := hregistered ▸ h.used id hid
  distinct := h.distinct
  outside := hlisteners ▸ h.outside
  inside := by
    have hevaluated := evaluated_settle hm (some m)
    rw [Option.any_some, hsince] at hevaluated
    rw [hlisteners, Nat.add_right_cancel hevaluated]
    exact h.inside
  stay k hk := h.stay k (hlisteners ▸ hk)
  members i m' hi := by
    rw [getElem?_settle hm] at hi
    split at hi
    · obtain rfl := Option.some_inj.mp (Option.some_inj.mp hi)
      exact hown
    · next hne =>
      exact (h.members i m' hi).unannounced fun id hid htells =>
        hothers id (fun heq => hne (h.apart place i own m' id hm hi heq hid)) htells
  apart := by
    refine h.apart_settle hm fun m' hm' i other id hi hid hid' => ?_
    obtain rfl := Option.some_inj.mp hm'
    exact h.apart i place other own id hi hm hid' (hlistener.symm.trans hid)

/-- A step may forget or keep what it likes. -/
theorem restep (h : l.Balances feed) (hm : l.members[place]? = some (some own)) {step : Step}
    (hstep : step.listener = own.step.listener) :
    (l.settle place (some { own with step })).Balances feed := by
  refine h.settle hm rfl hstep h.ordered rfl rfl ?_ fun _ _ htells => ⟨htells, rfl⟩
  cases h.members place own hm with
  | unheard hsince hlistener hheard => exact .unheard hsince (hstep.trans hlistener) hheard
  | listening first id hsince hlistener htaken htells hfirst hheard =>
    exact .listening first id hsince (hstep.trans hlistener) htaken htells hfirst hheard

/-- A step takes in what waits for it. -/
theorem drain (h : l.Balances feed) (hm : l.members[place]? = some (some own))
    (hid : own.step.listener = some id) {step : Step} (hstep : step.listener = some id) :
    (l.settle place (some ⟨step, own.heard ++ feed.events id, own.since⟩)).Balances
      (feed.drain id).2 := by
  refine h.settle hm rfl (hstep.trans hid.symm) (h.ordered.drain id) rfl rfl ?_
    fun other hother htells => ⟨htells.drain id, Feed.events_drain_of_ne fun heq => ?_⟩
  · cases h.members place own hm with
    | unheard hsince hlistener hheard => cases hlistener.symm.trans hid
    | listening first other hsince hlistener htaken htells hfirst hheard =>
      obtain rfl := Option.some_inj.mp (hlistener.symm.trans hid)
      refine .listening first other hsince hstep htaken (htells.drain other) hfirst ?_
      rw [Feed.events_drain, List.append_nil, hheard]
  · rw [heq] at hother
    exact hother hid

/-- The identifier that the feed gives next is not that of a listener. -/
theorem not_mem_new (h : l.Balances feed) {k : Listener} (hk : k ∈ feed.listeners) :
    k.id ∉ [(⟨feed.registered⟩ : ListenerId)] := by
  intro hid
  have hlt := (h.ordered.listeners k hk).1
  rw [List.mem_singleton.mp hid] at hlt
  exact Nat.lt_irrefl _ hlt

theorem mem_taken_append_iff (h : l.Balances feed) {k : Listener} (hk : k ∈ feed.listeners) :
    k.id ∈ l.taken ++ [⟨feed.registered⟩] ↔ k.id ∈ l.taken := by
  rw [List.mem_append, or_iff_left (h.not_mem_new hk)]

/-- At its first evaluation a step is registered. -/
theorem enroll (h : l.Balances feed) (hm : l.members[place]? = some (some own))
    (hnone : own.step.listener = none) {step : Step}
    (hstep : step.listener = some ⟨feed.registered⟩) :
    { l.settle place (some ⟨step, own.heard, some l.log.length⟩) with
      taken := l.taken ++ [⟨feed.registered⟩] : Ledger }.Balances (feed.subscribe .stay).2 where
  ordered := h.ordered.subscribe .stay
  counted := by
    show feed.registered + 1 = l.given.length + (l.taken ++ [_]).length
    rw [h.counted, List.length_append, List.length_singleton]
    omega
  used id hid := by
    rw [← List.append_assoc] at hid
    refine h.used_append (Nat.le_succ _) (fun id hid => ?_) id hid
    rw [List.mem_singleton.mp hid]
    exact Nat.lt_succ_self _
  distinct := by
    rw [← List.append_assoc]
    refine h.nodup_append (List.nodup_singleton _) fun id hid => ?_
    exact Nat.le_of_eq (congrArg ListenerId.raw (List.mem_singleton.mp hid)).symm
  outside := by
    have hothers : feed.listeners.filter (·.id ∉ l.taken ++ [⟨feed.registered⟩]) =
        feed.listeners.filter (·.id ∉ l.taken) :=
      List.filter_congr fun k hk => decide_eq_decide.mpr (not_congr (h.mem_taken_append_iff hk))
    rw [Feed.subscribe_listeners, List.filter_append, hothers, ← h.outside]
    simp [Ledger.settle]
  inside := by
    have hevaluated := evaluated_settle hm (some ⟨step, own.heard, some l.log.length⟩)
    rw [((h.members place own hm).since_eq_none hnone).1] at hevaluated
    have hothers : feed.listeners.filter (·.id ∈ l.taken ++ [⟨feed.registered⟩]) =
        feed.listeners.filter (·.id ∈ l.taken) :=
      List.filter_congr fun k hk => decide_eq_decide.mpr (h.mem_taken_append_iff hk)
    rw [Feed.subscribe_listeners, List.filter_append, hothers, List.length_append, h.inside]
    refine Eq.trans ?_ hevaluated.symm
    simp
  stay k hk htaken := by
    obtain hk | hk := List.mem_append.mp hk
    · exact h.stay k hk ((h.mem_taken_append_iff hk).mp htaken)
    · rw [List.mem_singleton.mp hk]
  members i m hi := by
    change (l.settle place _).members[i]? = _ at hi
    rw [getElem?_settle hm] at hi
    split at hi
    · obtain rfl := Option.some_inj.mp (Option.some_inj.mp hi)
      refine .listening l.log.length ⟨feed.registered⟩ rfl hstep
        (List.mem_append_right _ (List.mem_singleton.mpr rfl)) (.of_subscribe h.ordered)
        (Nat.le_refl _) ?_
      show own.heard ++ _ = l.log.drop l.log.length
      rw [((h.members place own hm).since_eq_none hnone).2, List.nil_append, List.drop_length]
      exact h.ordered.events_subscribe .stay
    · have hafter : m.Accords (feed.subscribe .stay).2 l.taken l.log :=
        (h.members i m hi).unannounced fun id _ htells =>
          ⟨htells.subscribe h.ordered .stay, Feed.events_subscribe_of_opened htells.opened _⟩
      exact hafter.mono fun id => List.mem_append_left _
  apart := by
    refine h.apart_settle hm fun m' hm' i other id hi hid hid' => ?_
    obtain rfl := Option.some_inj.mp hm'
    have hlt := h.lt_of_taken ((h.members i other hi).tells hid').2
    rw [Option.some_inj.mp (hid.symm.trans hstep)] at hlt
    exact absurd hlt (Nat.lt_irrefl _)

/-- A step that does not listen may go. -/
theorem drop_unheard (h : l.Balances feed) (hm : l.members[place]? = some (some own))
    (hnone : own.step.listener = none) : (l.settle place none).Balances feed where
  ordered := h.ordered
  counted := h.counted
  used := h.used
  distinct := h.distinct
  outside := h.outside
  inside := by
    have hevaluated := evaluated_settle hm none
    rw [((h.members place own hm).since_eq_none hnone).1] at hevaluated
    exact h.inside.trans hevaluated.symm
  stay := h.stay
  members i m hi := by
    rw [getElem?_settle hm] at hi
    split at hi
    · cases hi
    · exact h.members i m hi
  apart := h.apart_settle hm fun _ hm' => by cases hm'

/-- A step that listens and goes takes its listener with it. -/
theorem drop (h : l.Balances feed) (hm : l.members[place]? = some (some own))
    (hid : own.step.listener = some id) :
    (l.settle place none).Balances (feed.unsubscribe id) where
  ordered := h.ordered.unsubscribe id
  counted := h.counted
  used := h.used
  distinct := h.distinct
  outside := by
    obtain ⟨-, htaken⟩ := (h.members place own hm).tells hid
    have hsame : (feed.listeners.filter (·.id ∉ l.taken)).filter (·.id ≠ id) =
        feed.listeners.filter (·.id ∉ l.taken) := by
      refine List.filter_eq_self.mpr fun k hk => decide_eq_true fun heq => ?_
      exact of_decide_eq_true (List.mem_filter.mp hk).2 (heq ▸ htaken)
    rw [Feed.unsubscribe, List.filter_comm]
    exact h.outside.trans hsame.symm
  inside := by
    obtain ⟨htells, htaken⟩ := (h.members place own hm).tells hid
    obtain ⟨first, hsince⟩ := (h.members place own hm).since_eq_some hid
    have hone : (feed.listeners.filter (·.id ∈ l.taken)).filter (·.id = id) =
        [⟨id, id, .stay⟩] := by
      rw [List.filter_comm, htells.filter_id_eq h.ordered]
      exact List.filter_cons_of_pos (decide_eq_true htaken)
    have hevaluated := evaluated_settle hm none
    have hlength := List.length_eq_countP_add_countP (·.id = id)
      (l := feed.listeners.filter (·.id ∈ l.taken))
    rw [List.countP_eq_length_filter, List.countP_eq_length_filter, hone, h.inside] at hlength
    rw [hsince] at hevaluated
    show ((feed.listeners.filter (·.id ≠ id)).filter (·.id ∈ l.taken)).length = _
    rw [List.filter_comm]
    simp only [Option.isSome_some, ↓reduceIte, Option.any_none, Bool.false_eq_true, Nat.add_zero,
      List.length_cons, List.length_nil, Nat.zero_add, decide_eq_true_eq, decide_not, ne_eq,
      List.filter_filter] at hevaluated hlength ⊢
    omega
  stay k hk := h.stay k (List.mem_filter.mp hk).1
  members i m hi := by
    rw [getElem?_settle hm] at hi
    split at hi
    · cases hi
    · next hne =>
      exact (h.members i m hi).unannounced fun other hother htells =>
        ⟨htells.unsubscribe fun heq => hne (h.apart place i own m id hm hi hid (heq ▸ hother)), rfl⟩
  apart := h.apart_settle hm fun _ hm' => by cases hm'

end Ledger.Balances

end TreeAxes
