import Patchbay.Graph
import Patchbay.Graph.Search

/-!
# Editing a graph

An **edit** changes a graph or is refused. Every edit outdates the plan. A unit is told at once
when a stream connection to it is made or removed.

Removing a subgraph removes everything inside it. A unit that stands for a port of a subgraph
leaves only together with that subgraph.
-/

namespace Patchbay

/-- Why an edit did not happen. -/
inductive Failure where
  /-- It was refused. -/
  | refused (why : GraphError)
  /-- An internal rule was broken. -/
  | broken (how : Fault)
deriving DecidableEq

/-- A change of a graph that may be refused. -/
abbrev Edit (U α : Type) := EStateM Failure (Graph U) α

variable {U : Type}

namespace Edit

/-- Gives up an edit. -/
def refuse {α : Type} (why : GraphError) : Edit U α := throw (.refused why)

/-- The node with a number. -/
def node (id : UnitId) : Edit U (Node U) := do
  match (← get).node? id with
  | some n => return n
  | none => refuse (.unitNotFound id)

/-- Goes on with a result, unless a rule was broken on the way to it. -/
def ofResult {α : Type} : Except Fault α → Edit U α
  | .ok a => return a
  | .error f => throw (.broken f)

variable [Device U]

/-- Adds a node and registers its role. -/
def insert (owner : Option UnitId) (body : Body U) : Edit U UnitId := do
  let g ← get
  let id : UnitId := ⟨g.nodes.size⟩
  let registration := body.registration
  let (handle, names) ← match registration with
    | some role => ofResult (g.names.register id role)
    | none => pure (none, g.names)
  ofResult body.ports.checkPortRoom
  let node : Node U := { body, ports := body.ports, registration, handle, owner }
  set { g with nodes := g.nodes.push (some node), names, plan := none }
  return id

/-- The next free index among the ports of a subgraph on a side. -/
def nextPort (ports : Ports) : Side → Nat
  | .inlet => ports.inlets
  | .outlet => ports.outlets

/-- Adds a node inside a subgraph. One that stands for a side becomes the next port of it. -/
def insertInto (owner : UnitId) (body : Body U) : Edit U UnitId := do
  let holder ← node owner
  if !holder.isSubgraph then refuse (.notASubgraph owner)
  let port ← match body.side with
    | none => pure none
    | some side =>
      match holder.ports.grow? body.ports side with
      | none => refuse (.boundaryOrder owner)
      | some grown => pure (some (side, grown))
  let id ← insert (some owner) body
  let _ ← node owner
  match port with
  | none => pure ()
  | some (side, grown) =>
    modify fun g => g.modifyNode owner fun n => { n with ports := grown }
    let _ ← node id
    modify fun g => g.modifyNode id fun n => { n with port := some (side, nextPort holder.ports side) }
  return id

/-- Adds a node at the top level, or inside an owner. -/
def add (owner : Option UnitId) (body : Body U) : Edit U UnitId :=
  match owner with
  | none => insert none body
  | some owner => insertInto owner body

/-- Tells a unit that the stream connections at an inlet have changed, and how many there are at
each inlet now. -/
def notify (g : Graph U) (id : UnitId) (inlet : Nat) (counts : List Nat) : Graph U :=
  { g.modifyNode id fun n => { n with body := n.body.rewired inlet counts } with
    notices := g.notices.push { unit := id, inlet, counts } }

/-- Tells a unit that the stream connections at an inlet have changed. -/
def tell (g : Graph U) (id : UnitId) (inlet : Nat) : Graph U :=
  notify g id inlet (g.streamCounts id)

/-- The graph without a connection. -/
def drop (g : Graph U) (c : Connection) : Graph U :=
  let kind := g.kindOf c
  let dropped := { g with connections := g.connections.erase c, plan := none }
  if c ∈ g.connections ∧ kind = .stream then tell dropped c.dest c.inlet else dropped

/-- The graph without the connections of a node. Those that enter it go first. -/
def cutOff (g : Graph U) (id : UnitId) : Graph U :=
  (g.allIncoming id ++ g.allOutgoing id).foldl drop g

/-- The graph with the place of a node empty. The node gives up its role. -/
def vacate (g : Graph U) (id : UnitId) : Graph U :=
  let names :=
    match (g.node? id).bind Node.registration with
    | some role => g.names.unregister id role
    | none => g.names
  { g with nodes := g.nodes.setIfInBounds id.index none, names, plan := none }

/-- The graph without a node and its connections. What is inside the node stays. -/
def dropNode (g : Graph U) (id : UnitId) : Graph U := vacate (cutOff g id) id

/-- Takes out a node, after everything inside it. What comes out has been told of the connections
that it has lost. Nodes lie inside each other no deeper than `depth`. -/
def uproot : Nat → UnitId → Edit U (Body U)
  | 0, _ => throw (.broken .endless)
  | depth + 1, id => do
    let _ ← node id
    ((← get).children id).forM fun child => discard (uproot depth child)
    let _ ← node id
    modify (cutOff · id)
    let n ← node id
    modify (vacate · id)
    return n.body

/-- Removes a node and everything inside it. -/
def remove (id : UnitId) : Edit U (Body U) := do
  let n ← node id
  if n.port.isSome ∧ n.owner.any (← get).contains then refuse (.boundaryRemoval id)
  uproot (← get).nodes.size id

/-- Whether streams lead from one node to another. -/
def streamsReach (g : Graph U) (start goal : UnitId) : Bool :=
  let look (x : Nat) : Look :=
    if x = goal.index then .found
    else
      let leaving := g.connections.filter fun c => c.source.index == x && g.kindOf c == .stream
      .expand (leaving.map (·.dest.index))
  search g.nodes.size look [] [start.index]

/-- The kind that a connection would have, if its ends are such that it can be made. -/
def validate (c : Connection) : Edit U ConnectionKind := do
  let source ← node c.source
  let dest ← node c.dest
  if source.owner ≠ dest.owner then refuse (.crossGraph c)
  match source.ports.outletKind c.outlet with
  | none => refuse (.noSuchOutlet c.source c.outlet)
  | some kind =>
    if dest.ports.inlets ≤ c.inlet then refuse (.noSuchInlet c.dest c.inlet)
    if kind = .stream ∧ !dest.ports.acceptsStream c.inlet then
      refuse (.notStreamInlet c.dest c.inlet)
    return kind

/-- Makes a connection. The kind of the outlet is the kind of the connection. -/
def connect (c : Connection) : Edit U ConnectionKind := do
  let kind ← validate c
  let g ← get
  let _ ← node c.source
  if c ∈ g.connections then refuse (.duplicateConnection c)
  if kind = .stream ∧ streamsReach g c.dest c.source then refuse (.cycleDetected c)
  modify fun g => { g with connections := g.connections ++ [c], plan := none }
  let _ ← node c.dest
  if kind = .stream then modify (tell · c.dest c.inlet)
  return kind

/-- Removes a connection. -/
def disconnect (c : Connection) : Edit U PUnit := do
  let _ ← node c.dest
  let _ ← node c.source
  if c ∉ (← get).connections then refuse (.connectionNotFound c)
  modify (drop · c)

end Edit
end Patchbay
