import TreeAxes.Document.Basic

/-!
# Change feed

A feed announces changes of documents to its listeners. Every listener has a mailbox in
which the events it was called with are kept until they are taken out. An event goes to the
listeners that are registered when it is announced, in the order of their registration; a
listener may leave, or register another one, while it is called. Registrations are counted
without bound; in a word of 64 bits, identifiers differ in the first `2 ^ 64` of them.
-/

namespace TreeAxes

inductive ChangeKind where
  /-- A new document was stored. -/
  | added
  /-- A stored document was changed or removed. -/
  | other
deriving DecidableEq, Repr

structure ChangeEvent where
  document : DocumentId
  kind : ChangeKind
deriving DecidableEq, Repr

structure ListenerId where
  raw : Nat
deriving DecidableEq, Repr

namespace ListenerId

def describe (id : ListenerId) : String := s!"ListenerId({id.raw})"

/-- The text of a registration that ends when its owner lets go of it. -/
def describeSubscription (id : ListenerId) : String :=
  s!"Subscription \x7b id: {id.describe}, .. \x7d"

end ListenerId

/-- What a listener does when it is called, besides keeping the event. -/
inductive Reaction where
  | stay
  /-- Leaves the feed. -/
  | leave
  /-- Registers another listener that stays and keeps its events in the same mailbox. -/
  | recruit
deriving DecidableEq, Repr

structure Listener where
  id : ListenerId
  /-- The listener for which the mailbox was opened. -/
  mailbox : ListenerId
  reaction : Reaction
deriving DecidableEq, Repr

structure Mailbox where
  owner : ListenerId
  /-- The events that were kept, the latest first. -/
  kept : List ChangeEvent
deriving DecidableEq, Repr

structure Feed where
  listeners : List Listener
  mailboxes : List Mailbox
  /-- Number of listeners registered so far; it is the next identifier. -/
  registered : Nat
deriving DecidableEq, Repr

namespace Feed

def empty : Feed := ⟨[], [], 0⟩

def listenerCount (feed : Feed) : Nat := feed.listeners.length

/-- Registers a listener with the mailbox of another one. -/
def register (feed : Feed) (mailbox : ListenerId) (reaction : Reaction) : Feed :=
  { feed with
    listeners := feed.listeners ++ [⟨⟨feed.registered⟩, mailbox, reaction⟩]
    registered := feed.registered + 1 }

/-- Registers a listener with a mailbox of its own. -/
def subscribe (feed : Feed) (reaction : Reaction) : ListenerId × Feed :=
  let id : ListenerId := ⟨feed.registered⟩
  let opened : Feed := { feed with mailboxes := feed.mailboxes ++ [⟨id, []⟩] }
  (id, opened.register id reaction)

def isRegistered (feed : Feed) (id : ListenerId) : Bool := feed.listeners.any (·.id = id)

/-- Takes a listener out of the feed. Its mailbox stays. -/
def unsubscribe (feed : Feed) (id : ListenerId) : Feed :=
  { feed with listeners := feed.listeners.filter (·.id ≠ id) }

/-- Puts an event into a mailbox. -/
def deliver (feed : Feed) (mailbox : ListenerId) (event : ChangeEvent) : Feed :=
  { feed with
    mailboxes := feed.mailboxes.map fun m =>
      if m.owner = mailbox then { m with kept := event :: m.kept } else m }

/-- Calls one listener with an event. -/
def call (event : ChangeEvent) (feed : Feed) (listener : Listener) : Feed :=
  let feed := feed.deliver listener.mailbox event
  match listener.reaction with
  | .stay => feed
  | .leave => feed.unsubscribe listener.id
  | .recruit => feed.register listener.mailbox .stay

/-- Announces an event to all listeners that are registered now. -/
def announce (feed : Feed) (event : ChangeEvent) : Feed :=
  feed.listeners.foldl (call event) feed

/-- The events in a mailbox, in the order of their announcement. -/
def events (feed : Feed) (mailbox : ListenerId) : List ChangeEvent :=
  match feed.mailboxes.find? (·.owner = mailbox) with
  | some m => m.kept.reverse
  | none => []

/-- Takes all events out of a mailbox. -/
def drain (feed : Feed) (mailbox : ListenerId) : List ChangeEvent × Feed :=
  (feed.events mailbox,
    { feed with
      mailboxes := feed.mailboxes.map fun m =>
        if m.owner = mailbox then { m with kept := [] } else m })

def describe (feed : Feed) : String :=
  s!"NotificationService \x7b listeners: {feed.listenerCount} \x7d"

end Feed

end TreeAxes
