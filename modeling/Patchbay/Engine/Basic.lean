import Patchbay.Graph.Planning
import Patchbay.Journal

/-!
# Engines

An **engine** is a graph at work: it adds the settings, the queue of events, the clock of blocks
and the way in from the host and back to it.

While messages are delivered, what units send is kept in the **outbox** until the unit that sends
has finished. Between blocks the outbox is empty.
-/

namespace Patchbay

/-- Where a message goes that a unit sends. -/
inductive Route where
  /-- Along the connections of one of the unit's outlets. -/
  | outlet (index : Nat)
  /-- To all receivers of a name. -/
  | named (name : Symbol)
deriving DecidableEq

/-- A message that a unit has sent and that is still to be dispatched. -/
structure Outgoing where
  source : UnitId
  route : Route
  message : Message
deriving DecidableEq

/-- A graph with its events, its clock and its link to the host. -/
structure Engine (U : Type) where
  settings : Settings
  graph : Graph U
  queue : Queue := {}
  /-- When the next block starts, or the current one has started, in milliseconds. -/
  blockStart : Float := 0
  /-- The current block from the host, channel after channel; nothing before the first. -/
  hostInput : Samples := #[]
  /-- The current block for the host, channel after channel; nothing before the first. -/
  hostOutput : Samples := #[]
  /-- Messages that were sent and are still to be dispatched. -/
  outbox : Array Outgoing := #[]
  /-- Messages for the host that it has not taken yet. -/
  external : Array (Symbol × Message) := #[]
  journal : Journal := #[]

/-- Work on an engine. A broken rule stops it, and leaves the engine as it was at that moment, so
that its journal can still be read. -/
abbrev Work (U α : Type) := EStateM Fault (Engine U) α

variable {U : Type}

/-- A result that is there unless a rule was broken on the way to it, as work. -/
def Work.of {α : Type} : Except Fault α → Work U α
  | .ok a => return a
  | .error how => throw how

namespace Engine

/-- Who reports what no unit reports. -/
def reporter : String := "engine"

/-- An engine without units. There must be room for a block of each kind. -/
def new (settings : Settings) : Except Fault (Engine U) := do
  checkRoom settings.blockSize sampleBytes
  checkRoom settings.inputLength sampleBytes
  checkRoom settings.outputLength sampleBytes
  return { settings, graph := .empty settings.blockSize }

/-- Records what happened. -/
def record (e : Engine U) (h : Happening) : Engine U := { e with journal := e.journal.push h }

/-- Makes a remark to the host. -/
def report (e : Engine U) (severity : Severity) (text : String) : Engine U :=
  e.record (.reported { severity, source := reporter, text })

/-- Puts a message into the outbox. -/
def post (e : Engine U) (source : UnitId) (route : Route) (message : Message) : Engine U :=
  { e with outbox := e.outbox.push { source, route, message } }

/-- What a unit sees of the engine. -/
def surroundings (e : Engine U) (unit : UnitId) : Surroundings where
  unit := unit
  settings := e.settings
  blockStart := e.blockStart

/-- Changes a node of the graph. -/
def modifyNode (e : Engine U) (id : UnitId) (f : Node U → Node U) : Engine U :=
  { e with graph := e.graph.modifyNode id f }

/-- The warning that a name has no receivers. -/
def noReceiver (name : String) : String := s!"no receiver named '{name}'"

end Engine
end Patchbay
