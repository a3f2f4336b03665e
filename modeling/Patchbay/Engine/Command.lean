import Patchbay.Engine.Block
import Patchbay.Graph.Edit

/-!
# Commands

An engine is worked through **commands**. Each command is refused, or changes the engine and gives
a reply. A refused command changes nothing.

Since commands are plain data, a run of an engine is a list of them: `perform` carries out one, and
`Reachable` holds of the engines that some list of commands leads to.
-/

namespace Patchbay

variable {U : Type}

/-- A change of an engine that may be refused. -/
abbrev Change (U α : Type) := EStateM Failure (Engine U) α

namespace Engine

/-- Gives up a change. -/
def refuse {α : Type} (why : GraphError) : Change U α := throw (.refused why)

/-- The engine with another graph. What units were told in making that is recorded. -/
def withGraph (e : Engine U) (graph : Graph U) : Engine U :=
  { e with
    graph := { graph with notices := #[] }
    journal := e.journal ++ graph.notices.map .told }

/-- An edit of the graph as a change of the engine. -/
def edit {α : Type} (change : Edit U α) : Change U α := fun e =>
  match change e.graph with
  | .ok result graph => .ok result (e.withGraph graph)
  | .error why graph => .error why (e.withGraph graph)

/-- Work on the engine as a change of it, which only a broken rule can stop. -/
def ofWork {α : Type} (work : Work U α) : Change U α := fun e =>
  match work e with
  | .ok result e => .ok result e
  | .error how e => .error (.broken how) e

/-! ## Events -/

/-- Schedules a message to leave an outlet of a unit at its timestamp. -/
def schedule (target : UnitId) (outlet : Nat) (message : Message) : Change U EventId := do
  let e ← get
  match e.graph.node? target with
  | none => refuse (.unitNotFound target)
  | some n =>
    if n.ports.outlets ≤ outlet then refuse (.noSuchOutlet target outlet)
    let (id, queue) := e.queue.insert target outlet message
    set { e with queue }
    return id

/-- Cancels a scheduled event. The answer is whether it was still pending. -/
def cancel (target : UnitId) (outlet : Nat) (id : EventId) : Change U Bool := do
  let e ← get
  set { e with queue := e.queue.remove target outlet id }
  return (e.queue.find? target outlet id).isSome

/-- Schedules a message to leave the first outlet of every receiver of a name. The answer is the
number of receivers. -/
def sendTo (name : String) (message : Message) : Change U Nat := do
  let e ← get
  let receivers := e.graph.names.receivers name
  let queue := receivers.foldl (fun q id => (q.insert id 0 message).2) e.queue
  let e := { e with queue }
  set (if receivers.isEmpty then e.report .warning (noReceiver name) else e)
  return receivers.length

/-! ## The host's side -/

/-- Collects the messages for a name for the host. The answer is whether that is new. -/
def registerExternal (name : String) : Change U Bool := do
  let e ← get
  let names := e.graph.names.registerExternal name
  set { e with graph := { e.graph with names } }
  return Symbol.ofString name ∉ e.graph.names.externals

/-- Collects the messages for a name no longer. The answer is whether they were collected. -/
def unregisterExternal (name : String) : Change U Bool := do
  let e ← get
  let names := e.graph.names.unregisterExternal name
  set { e with graph := { e.graph with names } }
  return e.graph.names.isExternal name

/-- Takes the messages collected for the host. -/
def takeExternal : Change U (List (Symbol × Message)) := do
  let e ← get
  set { e with external := #[] }
  return e.external.toList

/-- Takes the journal, which starts afresh. -/
def takeJournal : Change U Journal := do
  let e ← get
  set { e with journal := #[] }
  return e.journal

variable [Device U]

/-- Removes a node, everything inside it, and the events that all these have scheduled. -/
def remove (id : UnitId) : Change U (Body U) := do
  let gone := (← get).graph.descendants id
  let body ← edit (Edit.remove id)
  modify fun e => { e with queue := gone.foldl Queue.removeUnit e.queue }
  return body

/-- Tells a unit, without a cause, that its stream connections have changed. The answer is whether
there is a unit with the number. -/
def retell (id : UnitId) (inlet : Nat) (counts : List Nat) : Change U Bool := do
  let found := (← get).graph.contains id
  if found then edit (modify (Edit.notify · id inlet counts))
  return found

/-! ## Commands as data -/

/-- What an engine can be asked to do. -/
inductive Command (U : Type) where
  | addUnit (owner : Option UnitId) (unit : U)
  | addSubgraph (owner : Option UnitId)
  | remove (node : UnitId)
  | connect (connection : Connection)
  | disconnect (connection : Connection)
  | schedule (target : UnitId) (outlet : Nat) (message : Message)
  | cancel (target : UnitId) (outlet : Nat) (event : EventId)
  | sendTo (name : String) (message : Message)
  | registerExternal (name : String)
  | unregisterExternal (name : String)
  | takeExternal
  | compile
  /-- Computes a block from the host's samples, and answers with so many samples. -/
  | process (input : Samples) (outLength : Nat)

/-- What a command answers. -/
inductive Reply (U : Type) where
  | added (node : UnitId)
  | removed (body : Body U)
  | connected (kind : ConnectionKind)
  | disconnected
  | scheduled (event : EventId)
  | cancelled (found : Bool)
  | sent (receivers : Nat)
  /-- Whether the messages for a name are collected now and were not before, or the other way
  round. -/
  | switched (new : Bool)
  | taken (messages : List (Symbol × Message))
  | compiled (plan : Plan)
  | block (samples : Samples)

/-- Carries out a command. -/
def perform : Command U → Change U (Reply U)
  | .addUnit owner unit => .added <$> edit (Edit.add owner (.device unit))
  | .addSubgraph owner => .added <$> edit (Edit.add owner .subgraph)
  | .remove node => .removed <$> remove node
  | .connect c => .connected <$> edit (Edit.connect c)
  | .disconnect c => do
    edit (Edit.disconnect c)
    return .disconnected
  | .schedule target outlet message => .scheduled <$> schedule target outlet message
  | .cancel target outlet event => .cancelled <$> cancel target outlet event
  | .sendTo name message => .sent <$> sendTo name message
  | .registerExternal name => .switched <$> registerExternal name
  | .unregisterExternal name => .switched <$> unregisterExternal name
  | .takeExternal => .taken <$> takeExternal
  | .compile => .compiled <$> ofWork compile
  | .process input outLength => .block <$> ofWork (process input outLength)

/-- The engine after a command; a refused one leaves it as it was, and so does a broken rule, after
which an engine is not worked further. -/
def after (e : Engine U) (c : Command U) : Option (Engine U) :=
  match perform c e with
  | .ok _ e | .error (.refused _) e => some e
  | .error (.broken _) _ => none

/-- The engines that commands lead to from a new one, as long as no rule is broken. -/
inductive Reachable (settings : Settings) : Engine U → Prop where
  | start {e : Engine U} : Engine.new settings = .ok e → Reachable settings e
  | step {e e' : Engine U} {c : Command U} :
      Reachable settings e → e.after c = some e' → Reachable settings e'

end Engine
end Patchbay
