import Patchbay.Connection
import Patchbay.Fault
import Patchbay.Message
import Patchbay.Timeline

/-!
# The event queue

An **event** is a message that is to leave an outlet of a unit at its timestamp. The queue keeps
events in order of time, and events of one time in the order of their insertion. An event whose
timestamp is no number counts as earlier than all others.
-/

namespace Patchbay

/-- The identity of an event, by which it can be cancelled. -/
structure EventId where
  value : Nat
deriving DecidableEq

/-- The name of an event in listings. -/
def EventId.text (e : EventId) : String := s!"event#{e.value}"

/-- A message that waits to leave an outlet. -/
structure Event where
  id : EventId
  target : UnitId
  outlet : Nat
  message : Message
deriving DecidableEq

/-- When an event is due. -/
def Event.timestamp (e : Event) : Float := e.message.timestamp

/-- Events in the order of their delivery. -/
structure Queue where
  events : List Event := []
  /-- The number that the next event gets. -/
  nextId : Nat := 0
deriving Inhabited

namespace Queue

/-- The bytes that an event takes in a queue. -/
def eventBytes : Nat := 360

/-- A queue with room for so many events, none of them there yet. -/
def withCapacity (count : Nat) : Except Fault Queue := do
  checkRoom count eventBytes
  return {}

/-- The timestamp before all others. -/
def earliest : Float := -1.0 / 0.0

/-- The message that is queued for `message`: its timestamp is a number. -/
def due (message : Message) : Message :=
  if message.timestamp.isNaN then message.stampedAt earliest else message

/-- Queues a message, behind every event that is not later. -/
def insert (q : Queue) (target : UnitId) (outlet : Nat) (message : Message) : EventId × Queue :=
  let message := due message
  let event : Event := { id := ⟨q.nextId⟩, target, outlet, message }
  (event.id,
    { events := insertBehind (·.timestamp ≤ message.timestamp) event q.events
      nextId := q.nextId + 1 })

/-- Whether an event is the one asked for. -/
def isEvent (target : UnitId) (outlet : Nat) (id : EventId) (e : Event) : Bool :=
  e.id == id && e.target == target && e.outlet == outlet

/-- The event with an identity, if it is pending for the outlet. -/
def find? (q : Queue) (target : UnitId) (outlet : Nat) (id : EventId) : Option Event :=
  q.events.find? (isEvent target outlet id)

/-- The queue without the event with an identity, if it is pending for the outlet. -/
def remove (q : Queue) (target : UnitId) (outlet : Nat) (id : EventId) : Queue :=
  { q with events := q.events.eraseP (isEvent target outlet id) }

/-- The number of events for a unit. -/
def countFor (q : Queue) (target : UnitId) : Nat :=
  q.events.countP (·.target == target)

/-- The queue without the events for a unit. -/
def removeUnit (q : Queue) (target : UnitId) : Queue :=
  { q with events := q.events.filter (·.target != target) }

/-- The event to be delivered next. -/
def peek? (q : Queue) : Option Event := q.events.head?

/-- The event to be delivered next, and the queue without it. -/
def pop? (q : Queue) : Option (Event × Queue) :=
  match q.events with
  | [] => none
  | e :: rest => some (e, { q with events := rest })

/-- The event to be delivered next, if it is due before `stop`, and the queue without it. -/
def popBefore? (q : Queue) (stop : Float) : Option (Event × Queue) :=
  match q.events with
  | [] => none
  | e :: rest => if e.timestamp < stop then some (e, { q with events := rest }) else none

/-- The queue without events. Numbers are not handed out again. -/
def clear (q : Queue) : Queue := { q with events := [] }

/-- The number of pending events. -/
def length (q : Queue) : Nat := q.events.length

end Queue
end Patchbay
