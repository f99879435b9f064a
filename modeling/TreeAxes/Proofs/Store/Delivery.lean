import TreeAxes.Proofs.Store.Announced

/-!
# Delivery

A listener that has a mailbox to itself finds in it every event that was announced, once and in
order. An announcement calls each listener once: those that leave are gone after it, and those that
were recruited follow the others.
-/

namespace TreeAxes

namespace Feed

/-- The listeners that others register when they are called, numbered from `next`. -/
def recruits : Nat → List Listener → List Listener
  | _, [] => []
  | next, l :: ls =>
    if l.reaction = .recruit then ⟨⟨next⟩, l.mailbox, .stay⟩ :: recruits (next + 1) ls
    else recruits next ls

def announceAll (feed : Feed) (events : List ChangeEvent) : Feed := events.foldl announce feed

/-- Identifiers ascend, and mailboxes were opened for identifiers that were given. -/
structure Ordered (feed : Feed) : Prop where
  ascending : feed.listeners.Pairwise (·.id.raw < ·.id.raw)
  listeners : ∀ l ∈ feed.listeners, l.id.raw < feed.registered ∧ l.mailbox.raw < feed.registered
  mailboxes : ∀ m ∈ feed.mailboxes, m.owner.raw < feed.registered

/-- A listener that stays, and a mailbox in which no other listener keeps events. -/
structure Tells (feed : Feed) (id : ListenerId) : Prop where
  alone : feed.listeners.filter (·.mailbox = id) = [⟨id, id, .stay⟩]
  opened : ∃ m ∈ feed.mailboxes, m.owner = id

variable {feed : Feed} {id other : ListenerId} {event : ChangeEvent}

theorem subscribe_id (feed : Feed) (reaction : Reaction) :
    (feed.subscribe reaction).1 = ⟨feed.registered⟩ := rfl

theorem subscribe_listeners (feed : Feed) (reaction : Reaction) :
    (feed.subscribe reaction).2.listeners =
      feed.listeners ++ [⟨⟨feed.registered⟩, ⟨feed.registered⟩, reaction⟩] := rfl

theorem subscribe_mailboxes (feed : Feed) (reaction : Reaction) :
    (feed.subscribe reaction).2.mailboxes = feed.mailboxes ++ [⟨⟨feed.registered⟩, []⟩] := rfl

theorem announceAll_append (feed : Feed) (events events' : List ChangeEvent) :
    feed.announceAll (events ++ events') = (feed.announceAll events).announceAll events' :=
  List.foldl_append

/-! ## Recruits -/

theorem mem_recruits {next : Nat} {ls : List Listener} {r : Listener} (h : r ∈ recruits next ls) :
    next ≤ r.id.raw ∧ r.id.raw < next + (recruits next ls).length ∧
      ∃ l ∈ ls, l.reaction = .recruit ∧ r.mailbox = l.mailbox := by
  induction ls generalizing next with
  | nil => cases h
  | cons l ls ih =>
    rw [recruits] at h ⊢
    split at h
    · next hrecruit =>
      rw [if_pos hrecruit, List.length_cons]
      obtain rfl | h := List.mem_cons.mp h
      · exact ⟨Nat.le_refl _, by show next < _; omega, l, List.mem_cons_self, hrecruit, rfl⟩
      · obtain ⟨hle, hlt, other, hother, hrest⟩ := ih h
        exact ⟨by omega, by omega, other, List.mem_cons_of_mem _ hother, hrest⟩
    · next hrecruit =>
      rw [if_neg hrecruit]
      obtain ⟨hle, hlt, other, hother, hrest⟩ := ih h
      exact ⟨hle, hlt, other, List.mem_cons_of_mem _ hother, hrest⟩

theorem recruits_filter {next : Nat} {ls : List Listener} {p : Listener → Bool}
    (h : ∀ l ∈ ls, l.reaction = .recruit → p l) :
    recruits next (ls.filter p) = recruits next ls := by
  induction ls generalizing next with
  | nil => rfl
  | cons l ls ih =>
    obtain ⟨hl, hls⟩ := List.forall_mem_cons.mp h
    by_cases hrecruit : l.reaction = .recruit
    · rw [List.filter_cons_of_pos (hl hrecruit), recruits, recruits, if_pos hrecruit,
        if_pos hrecruit, ih hls]
    · rw [recruits, if_neg hrecruit, List.filter_cons]
      split
      · rw [recruits, if_neg hrecruit, ih hls]
      · exact ih hls

/-- No one else is taken out of the feed when listeners leave. -/
theorem listeners_foldl_call {ls : List Listener}
    (hnumbered : ∀ l ∈ ls, l.id.raw < feed.registered) :
    (ls.foldl (call event) feed).listeners =
        feed.listeners.filter (fun l => !ls.any fun l' => l'.reaction = .leave ∧ l'.id = l.id) ++
          recruits feed.registered ls ∧
      (ls.foldl (call event) feed).registered =
        feed.registered + (recruits feed.registered ls).length := by
  induction ls generalizing feed with
  | nil => exact ⟨by simp [recruits], rfl⟩
  | cons l ls ih =>
    obtain ⟨hl, hls⟩ := List.forall_mem_cons.mp hnumbered
    rw [List.foldl_cons, recruits]
    cases hreaction : l.reaction with
    | stay =>
      have hcall : call event feed l = feed.deliver l.mailbox event := by rw [call, hreaction]
      obtain ⟨hlisteners, hregistered⟩ := @ih (feed.deliver l.mailbox event) hls
      rw [hcall, if_neg (by decide), hlisteners, hregistered]
      refine ⟨?_, rfl⟩
      simp [deliver, hreaction]
    | leave =>
      have hcall : call event feed l = (feed.deliver l.mailbox event).unsubscribe l.id := by
        rw [call, hreaction]
      obtain ⟨hlisteners, hregistered⟩ := @ih ((feed.deliver l.mailbox event).unsubscribe l.id) hls
      rw [hcall, if_neg (by decide), hlisteners, hregistered]
      refine ⟨?_, rfl⟩
      simp only [unsubscribe, deliver, List.filter_filter, hreaction, List.any_cons]
      congr 2
      funext other
      by_cases hid : other.id = l.id
      · simp [hid]
      · simp [hid, Ne.symm hid]
    | recruit =>
      let new : Listener := ⟨⟨feed.registered⟩, l.mailbox, .stay⟩
      let later := (feed.deliver l.mailbox event).register l.mailbox .stay
      have hcall : call event feed l = later := by rw [call, hreaction]
      have hstays : [new].filter (fun n => !ls.any fun l' =>
          l'.reaction = .leave ∧ l'.id = n.id) = [new] := by
        refine List.filter_eq_self.mpr fun n hn => ?_
        rw [Bool.not_eq_true', ← Bool.not_eq_true, List.any_eq_true]
        rintro ⟨l', hl', hleave⟩
        have hlt := hls l' hl'
        rw [(of_decide_eq_true hleave).2, List.mem_singleton.mp hn] at hlt
        exact Nat.lt_irrefl _ hlt
      obtain ⟨hlisteners, hregistered⟩ := @ih later fun l' hl' => Nat.lt_succ_of_lt (hls l' hl')
      have hlater : later.listeners = feed.listeners ++ [new] := rfl
      have hnext : later.registered = feed.registered + 1 := rfl
      rw [hcall, if_pos rfl, hlisteners, hregistered, hlater, hnext, List.length_cons,
        List.filter_append, hstays, List.append_assoc]
      refine ⟨?_, by omega⟩
      simp [hreaction, new]

namespace Ordered

theorem nodup (h : feed.Ordered) : (feed.listeners.map (·.id)).Nodup :=
  List.pairwise_map.mpr (h.ascending.imp fun hlt heq => Nat.ne_of_lt hlt (congrArg _ heq))

/-- Those that leave are gone after an announcement; those that were recruited follow the others. -/
theorem listeners_announce (h : feed.Ordered) (event : ChangeEvent) :
    (feed.announce event).listeners =
        feed.listeners.filter (·.reaction ≠ .leave) ++ recruits feed.registered feed.listeners ∧
      (feed.announce event).registered =
        feed.registered + (recruits feed.registered feed.listeners).length := by
  obtain ⟨hlisteners, hregistered⟩ :=
    @listeners_foldl_call feed event feed.listeners fun l hl => (h.listeners l hl).1
  refine ⟨?_, hregistered⟩
  rw [announce, hlisteners]
  congr 1
  refine List.filter_congr fun l hl => ?_
  rw [Bool.eq_iff_iff, Bool.not_eq_true', ← Bool.not_eq_true, List.any_eq_true, decide_eq_true_iff]
  refine not_congr ⟨?_, fun hleave => ⟨l, hl, decide_eq_true ⟨hleave, rfl⟩⟩⟩
  rintro ⟨l', hl', hleave⟩
  obtain ⟨hleave, hid⟩ := of_decide_eq_true hleave
  rwa [← List.inj_on_of_nodup_map h.nodup hl' hl hid]

theorem register (h : feed.Ordered) {mailbox : ListenerId}
    (hmailbox : mailbox.raw ≤ feed.registered) (reaction : Reaction) :
    (feed.register mailbox reaction).Ordered where
  ascending := by
    refine List.pairwise_append.mpr
      ⟨h.ascending, List.pairwise_singleton _ _, fun l hl new hnew => ?_⟩
    rw [List.mem_singleton.mp hnew]
    exact (h.listeners l hl).1
  listeners l hl := by
    obtain hl | hl := List.mem_append.mp hl
    · obtain ⟨hid, hown⟩ := h.listeners l hl
      exact ⟨Nat.lt_succ_of_lt hid, Nat.lt_succ_of_lt hown⟩
    · rw [List.mem_singleton.mp hl]
      exact ⟨Nat.lt_succ_self _, Nat.lt_succ_of_le hmailbox⟩
  mailboxes m hm := Nat.lt_succ_of_lt (h.mailboxes m hm)

theorem subscribe (h : feed.Ordered) (reaction : Reaction) :
    (feed.subscribe reaction).2.Ordered where
  ascending := (h.register (Nat.le_refl feed.registered) reaction).ascending
  listeners := (h.register (Nat.le_refl feed.registered) reaction).listeners
  mailboxes m hm := by
    obtain hm | hm := List.mem_append.mp hm
    · exact Nat.lt_succ_of_lt (h.mailboxes m hm)
    · rw [List.mem_singleton.mp hm]
      exact Nat.lt_succ_self _

theorem unsubscribe (h : feed.Ordered) (id : ListenerId) : (feed.unsubscribe id).Ordered where
  ascending := h.ascending.filter _
  listeners l hl := h.listeners l (List.mem_filter.mp hl).1
  mailboxes := h.mailboxes

theorem deliver (h : feed.Ordered) (mailbox : ListenerId) :
    (feed.deliver mailbox event).Ordered where
  ascending := h.ascending
  listeners := h.listeners
  mailboxes m hm := by
    obtain ⟨before, hbefore, rfl⟩ := List.mem_map.mp hm
    have hlt := h.mailboxes before hbefore
    split <;> exact hlt

theorem drain (h : feed.Ordered) (id : ListenerId) : (feed.drain id).2.Ordered where
  ascending := h.ascending
  listeners := h.listeners
  mailboxes m hm := by
    obtain ⟨before, hbefore, rfl⟩ := List.mem_map.mp hm
    have hlt := h.mailboxes before hbefore
    split <;> exact hlt

theorem call (h : feed.Ordered) {l : Listener} (hl : l.mailbox.raw < feed.registered) :
    (call event feed l).Ordered ∧ feed.registered ≤ (Feed.call event feed l).registered := by
  rw [Feed.call]
  cases l.reaction with
  | stay => exact ⟨h.deliver _, Nat.le_refl _⟩
  | leave => exact ⟨(h.deliver _).unsubscribe _, Nat.le_refl _⟩
  | recruit => exact ⟨(h.deliver _).register (Nat.le_of_lt hl) _, Nat.le_succ _⟩

theorem announce (h : feed.Ordered) (event : ChangeEvent) : (feed.announce event).Ordered := by
  rw [Feed.announce]
  -- No call takes an identifier back, so the mailboxes of those that are still to be called stay.
  refine (List.foldlRecOn feed.listeners (Feed.call event) (motive := fun later =>
    later.Ordered ∧ feed.registered ≤ later.registered) ⟨h, Nat.le_refl _⟩ ?_).1
  intro later hlater l hl
  obtain ⟨hordered, hle⟩ := hlater
  obtain ⟨hcalled, hmore⟩ := hordered.call (Nat.lt_of_lt_of_le (h.listeners l hl).2 hle)
  exact ⟨hcalled, Nat.le_trans hle hmore⟩

theorem announceAll (h : feed.Ordered) (events : List ChangeEvent) :
    (feed.announceAll events).Ordered := by
  induction events generalizing feed with
  | nil => exact h
  | cons event events ih => exact ih (h.announce event)

/-- A new listener finds an empty mailbox. -/
theorem events_subscribe (h : feed.Ordered) (reaction : Reaction) :
    (feed.subscribe reaction).2.events (feed.subscribe reaction).1 = [] := by
  have hnone : feed.mailboxes.find? (·.owner = ⟨feed.registered⟩) = none := by
    refine List.find?_eq_none.mpr fun m hm howner => ?_
    have hlt := h.mailboxes m hm
    rw [of_decide_eq_true howner] at hlt
    exact Nat.lt_irrefl _ hlt
  have hfound : (feed.subscribe reaction).2.mailboxes.find? (·.owner = ⟨feed.registered⟩) =
      some ⟨⟨feed.registered⟩, []⟩ := by
    rw [subscribe_mailboxes, List.find?_append, hnone]
    simp
  rw [events, subscribe_id, hfound]
  rfl

end Ordered

/-! ## Events -/

theorem events_subscribe_of_opened (h : ∃ m ∈ feed.mailboxes, m.owner = id) (reaction : Reaction) :
    (feed.subscribe reaction).2.events id = feed.events id := by
  obtain ⟨m, hfound, -⟩ := exists_find?_owner h
  rw [events, events, subscribe_mailboxes, List.find?_append, hfound]
  rfl

namespace Tells

theorem mem (h : feed.Tells id) : ⟨id, id, .stay⟩ ∈ feed.listeners := by
  have hmem : (⟨id, id, .stay⟩ : Listener) ∈ feed.listeners.filter (·.mailbox = id) :=
    h.alone ▸ List.mem_singleton_self _
  exact (List.mem_filter.mp hmem).1

theorem lt_registered (h : feed.Tells id) (hordered : feed.Ordered) : id.raw < feed.registered :=
  (hordered.listeners _ h.mem).1

theorem eq_of_mailbox (h : feed.Tells id) {l : Listener} (hl : l ∈ feed.listeners)
    (hmailbox : l.mailbox = id) : l = ⟨id, id, .stay⟩ := by
  have hmem : l ∈ feed.listeners.filter (·.mailbox = id) :=
    List.mem_filter.mpr ⟨hl, decide_eq_true hmailbox⟩
  rw [h.alone] at hmem
  exact List.mem_singleton.mp hmem

/-- No other listener has its identifier. -/
theorem filter_id_eq (h : feed.Tells id) (hordered : feed.Ordered) :
    feed.listeners.filter (·.id = id) = [⟨id, id, .stay⟩] := by
  rw [← h.alone]
  refine List.filter_congr fun l hl => decide_eq_decide.mpr ⟨fun hid => ?_, fun hmailbox => ?_⟩
  · rw [List.inj_on_of_nodup_map hordered.nodup hl h.mem hid]
  · rw [h.eq_of_mailbox hl hmailbox]

theorem of_subscribe (h : feed.Ordered) :
    (feed.subscribe .stay).2.Tells (feed.subscribe .stay).1 where
  alone := by
    have hnone : feed.listeners.filter (·.mailbox = ⟨feed.registered⟩) = [] := by
      refine List.filter_eq_nil_iff.mpr fun l hl hmailbox => ?_
      have hlt := (h.listeners l hl).2
      rw [of_decide_eq_true hmailbox] at hlt
      exact Nat.lt_irrefl _ hlt
    rw [subscribe_listeners, subscribe_id, List.filter_append, hnone]
    simp
  opened := ⟨_, List.mem_append_right _ (List.mem_singleton.mpr rfl), rfl⟩

theorem subscribe (h : feed.Tells id) (hordered : feed.Ordered) (reaction : Reaction) :
    (feed.subscribe reaction).2.Tells id where
  alone := by
    have hne : (⟨feed.registered⟩ : ListenerId) ≠ id := fun heq =>
      Nat.lt_irrefl _ (heq ▸ h.lt_registered hordered)
    rw [subscribe_listeners, List.filter_append, h.alone]
    simp [hne]
  opened := by
    obtain ⟨m, hm, howner⟩ := h.opened
    exact ⟨m, List.mem_append_left _ hm, howner⟩

theorem unsubscribe (h : feed.Tells id) (hother : other ≠ id) :
    (feed.unsubscribe other).Tells id where
  alone := by
    rw [Feed.unsubscribe, List.filter_comm, h.alone]
    simp [hother.symm]
  opened := h.opened

theorem drain (h : feed.Tells id) (other : ListenerId) : (feed.drain other).2.Tells id where
  alone := h.alone
  opened := opened_drain h.opened other

/-- The event is put into the mailbox once, and the listener stays alone with it. -/
theorem announce (h : feed.Tells id) (hordered : feed.Ordered) (event : ChangeEvent) :
    (feed.announce event).Tells id ∧
      (feed.announce event).events id = feed.events id ++ [event] := by
  obtain ⟨hopened, hevents⟩ := @events_foldl_call feed id event h.opened feed.listeners
  refine ⟨⟨?_, hopened⟩, hevents.trans (by rw [h.alone]; rfl)⟩
  have hrecruits : (recruits feed.registered feed.listeners).filter (·.mailbox = id) = [] := by
    refine List.filter_eq_nil_iff.mpr fun r hr hmailbox => ?_
    obtain ⟨-, -, l, hl, hrecruit, hown⟩ := mem_recruits hr
    rw [h.eq_of_mailbox hl (hown ▸ of_decide_eq_true hmailbox)] at hrecruit
    cases hrecruit
  rw [(hordered.listeners_announce event).1, List.filter_append, hrecruits, List.append_nil,
    List.filter_comm, h.alone]
  rfl

theorem announceAll (h : feed.Tells id) (hordered : feed.Ordered) (events : List ChangeEvent) :
    (feed.announceAll events).Tells id ∧
      (feed.announceAll events).events id = feed.events id ++ events := by
  induction events generalizing feed with
  | nil => exact ⟨h, (List.append_nil _).symm⟩
  | cons event events ih =>
    obtain ⟨htells, hevents⟩ := h.announce hordered event
    obtain ⟨htells', hevents'⟩ := ih htells (hordered.announce event)
    refine ⟨htells', ?_⟩
    rw [announceAll, List.foldl_cons, ← announceAll, hevents', hevents, List.append_assoc]
    rfl

end Tells

end Feed

end TreeAxes
