import Patchbay.Engine.Basic

/-!
# Delivering messages

A unit that computes nothing receives a message at once. What it sends meanwhile waits in the
outbox until it has finished, and is then dispatched in the order in which it was sent, each
message with all that follows from it before the next. A unit that computes keeps the message for
its next step.

A subgraph hands a message to the unit behind the inlet. A unit that stands for a message outlet of
a subgraph receives nothing; the message leaves the subgraph there.

Messages may go round in circles, so deliveries nest to a limited depth only. What lies deeper is
dropped and reported.
-/

namespace Patchbay

variable {U : Type} [Device U]

namespace Engine

/-- How deep deliveries may nest. -/
def maxDepth : Nat := 256

/-- Carries out a unit's script up to its end; what the unit becomes, and the engine. -/
def carryOut (id : UnitId) (label : String) : Script U → Engine U → U × Engine U
  | .done unit, e => (unit, e)
  | .send outlet message next, e => carryOut id label next (e.post id (.outlet outlet) message)
  | .sendTo name message next, e => carryOut id label next (e.post id (.named name) message)
  | .schedule outlet message next, e =>
    let (event, queue) := e.queue.insert id outlet message
    carryOut id label (next event) ({ e with queue }.record (.scheduled id event))
  | .cancel outlet event next, e =>
    let found := (e.queue.find? id outlet event).isSome
    let e := { e with queue := e.queue.remove id outlet event }
    carryOut id label (next found) (e.record (.cancelled id event found))
  | .report severity text next, e =>
    carryOut id label next (e.record (.reported { severity, source := label, text }))

/-- Lets a unit react by a script, and puts what it has become in its place. -/
def react (e : Engine U) (id : UnitId) (unit : U) (script : Script U) : Engine U :=
  let (unit, e) := carryOut id (Device.label unit) script e
  e.modifyNode id fun n => { n with body := .device unit }

/-- Lets a unit receive a message. -/
def receive (e : Engine U) (id : UnitId) (unit : U) (inlet : Nat) (message : Message) :
    Engine U :=
  let e := e.record (.received id inlet message)
  e.react id unit (Device.receive unit inlet message (e.surroundings id))

/-- Puts a message before a unit that computes, behind those that are not later. -/
def defer (e : Engine U) (id : UnitId) (inlet : Nat) (message : Message) : Engine U :=
  let insert (n : Node U) : Node U :=
    let pending :=
      insertBehind (·.message.timestamp ≤ message.timestamp) { inlet, message } n.pending
    { n with pending, pace := .aware }
  (e.modifyNode id insert).record (.deferred id inlet message)

/-- Sends a message along every connection of an outlet. -/
def sendFrom (deliver : UnitId → Nat → Message → Engine U → Engine U) (source : UnitId)
    (outlet : Nat) (message : Message) (e : Engine U) : Engine U :=
  (e.graph.outgoing source outlet).foldl (fun e c => deliver c.dest c.inlet message e) e

/-- Sends a message to the host, if the name is external, and then to every receiver of the
name. -/
def sendNamed (deliver : UnitId → Nat → Message → Engine U → Engine U) (name : Symbol)
    (message : Message) (e : Engine U) : Engine U :=
  let receivers := e.graph.names.receivers name.text
  let e :=
    if e.graph.names.isExternal name.text then
      { e with external := e.external.push (name, message) }.record (.collected name message)
    else if receivers.isEmpty then e.report .warning (noReceiver name.text)
    else e
  receivers.foldl (fun e id => deliver id 0 message e) e

/-- Dispatches one message of the outbox. -/
def dispatch (deliver : UnitId → Nat → Message → Engine U → Engine U) (out : Outgoing)
    (e : Engine U) : Engine U :=
  match out.route with
  | .outlet outlet => sendFrom deliver out.source outlet out.message e
  | .named name => sendNamed deliver name out.message e

/-- Dispatches every message of the outbox from a mark on, and takes them out. -/
def flush (deliver : UnitId → Nat → Message → Engine U → Engine U) (mark : Nat) (e : Engine U) :
    Engine U :=
  let places := List.range' mark (e.outbox.size - mark)
  let e := places.foldl
    (fun e i => match e.outbox[i]? with
      | some out => dispatch deliver out e
      | none => e)
    e
  { e with outbox := e.outbox.extract 0 mark }

/-- Where a message goes on without being received: through the inlet of a subgraph, or out of the
subgraph at an outlet for messages. -/
def passOn? (g : Graph U) (n : Node U) (target : UnitId) (inlet : Nat) :
    Option (List (UnitId × Nat)) :=
  if n.isSubgraph then some ((g.portUnit? target .inlet inlet).toList.map fun port => (port, 0))
  else
    match n.owner, n.port with
    | some owner, some (.outlet, index) =>
      if n.ports.hasStreams then none
      else some ((g.outgoing owner index).map fun c => (c.dest, c.inlet))
    | _, _ => none

/-- Delivers a message to an inlet, with no more than `levels` deliveries nested. -/
def deliver (levels : Nat) (target : UnitId) (inlet : Nat) (message : Message) (e : Engine U) :
    Engine U :=
  match levels with
  | 0 =>
    e.report .error s!"message depth limit reached at {target.text}; dropping '{message.text}'"
  | levels + 1 =>
    match e.graph.node? target with
    | none => e
    | some n =>
      match passOn? e.graph n target inlet, n.body with
      | some goals, _ => goals.foldl (fun e (dest, inlet) => deliver levels dest inlet message e) e
      | none, .subgraph => e
      | none, .device unit =>
        if Device.computes unit then e.defer target inlet message
        else
          flush (deliver levels) e.outbox.size (e.receive target unit inlet message)

/-- Hands an event that is due back to its unit, and dispatches what the unit sends. A subgraph
sends it on. -/
def handBack (event : Event) (e : Engine U) : Engine U :=
  match e.graph.node? event.target with
  | none => e
  | some n =>
    let mark := e.outbox.size
    let e :=
      match n.body with
      | .subgraph => e.post event.target (.outlet event.outlet) event.message
      | .device unit =>
        e.react event.target unit
          (Device.emit unit event.outlet event.message (e.surroundings event.target))
    flush (deliver (maxDepth - 1)) mark e

end Engine
end Patchbay
