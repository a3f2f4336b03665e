import Patchbay.Graph
import Patchbay.Graph.Search

/-!
# Planning a graph

Planning walks a graph backward from the units where signals end, and places every unit behind
those that it reads. On the way every stream port is bound to a buffer:

- an inlet without a stream is silent;
- an inlet with one stream reads the buffer of that stream's outlet;
- an inlet with several reads the last of a chain of sums, each in a buffer of its own.

The buffers of a unit's outlets are taken before those of its inlets are given back, so no unit
reads and writes one buffer. A unit that computes nothing is bound but gets no step.

Some units must come first although no buffer joins them: those that send messages to a unit, the
emitters of the link it collects, and the owners of the delay line it taps. They are placed first
unless they wait for a unit whose own inlets are still being bound, as in a loop of messages; then
they are tried again right after the unit.

A subgraph binds its inlets, then places what it holds by a walk of the same kind, and then takes
over the buffers of the units behind its outlets. What lies inside a subgraph is reached through
the subgraph.
-/

namespace Patchbay

/-- How far planning has come with a node. -/
inductive Visit where
  | unvisited
  /-- Its inlets are being bound. -/
  | binding
  /-- It is a subgraph with bound inlets, and its contents are being placed. -/
  | filling
  | placed
deriving DecidableEq, Inhabited

/-- A plan in the making. -/
structure Draft where
  /-- How far planning has come with each node. -/
  visits : Array Visit
  /-- The binding of each node so far. -/
  bindings : Array Binding
  pool : Pool
  steps : Array Step := #[]

namespace Draft

/-- How far planning has come with a node. -/
def visit (d : Draft) (id : UnitId) : Visit := (d.visits[id.index]?).getD .placed

/-- Records how far planning has come with a node. -/
def mark (d : Draft) (id : UnitId) (v : Visit) : Draft :=
  { d with visits := d.visits.setIfInBounds id.index v }

/-- The binding of a node so far. -/
def binding (d : Draft) (id : UnitId) : Binding := (d.bindings[id.index]?).getD {}

/-- Binds a node. -/
def bind (d : Draft) (id : UnitId) (b : Binding) : Draft :=
  { d with bindings := d.bindings.setIfInBounds id.index b }

/-- The buffer at an outlet of a node; silence before it is bound. -/
def outlet (d : Draft) (id : UnitId) (index : Nat) : BufferId :=
  ((d.binding id).outlets[index]?).getD .zero

/-- Gives back one reader of each buffer. -/
def releaseAll (d : Draft) (buffers : List BufferId) : Except Fault Draft := do
  return { d with pool := ← buffers.foldlM Pool.release d.pool }

end Draft

variable {U : Type} [Device U]

namespace Graph

/-- Whether planning starts from a node: nothing leaves it, or it asks for it. -/
def isRoot (g : Graph U) (id : UnitId) : Bool :=
  (g.node? id).any fun n => (g.allOutgoing id).isEmpty || n.body.isSink

/-- The nodes that must come before a node although no buffer joins them. -/
def orderingParents (g : Graph U) (id : UnitId) : List UnitId :=
  match g.node? id with
  | none => []
  | some n =>
    let senders :=
      (List.range n.ports.inlets).flatMap fun i => (g.messageSources id i).map (·.source)
    let named :=
      match n.registration, n.handle with
      | some (.collector ..), some (.link slot) => g.names.emitters slot
      | some (.accessor .delayLine _), some (.store slot) => g.names.owners slot
      | _, _ => []
    senders ++ named

/-- What is seen at a node in the search for one whose own inlets are still being bound. -/
def lookForBusy (g : Graph U) (d : Draft) (x : Nat) : Look :=
  let id : UnitId := ⟨x⟩
  match g.node? id with
  | none => .expand []
  | some n =>
    match d.visit id with
    | .placed => .expand []
    | .binding | .filling => .found
    | .unvisited =>
      let sources := (List.range n.ports.streamInlets).flatMap fun i =>
        (g.streamSources id i).map (·.source)
      let inside := g.children id
      match n.owner with
      | none => .expand ((sources ++ inside).map UnitId.index)
      | some owner =>
        match d.visit owner, n.port with
        | .unvisited, _ => .expand ((sources ++ owner :: inside).map UnitId.index)
        | .binding, some (.inlet, _) => .found
        | _, _ => .expand ((sources ++ inside).map UnitId.index)

/-- Whether a node, placed now, would read from a node whose own inlets are still being bound.
There must have been a node with the number. -/
def waits (g : Graph U) (d : Draft) (start : UnitId) : Except Fault Bool :=
  if start.index < g.nodes.size then
    .ok (search g.nodes.size (g.lookForBusy d) [] [start.index])
  else .error .outOfBounds

/-- The readers, outside a subgraph, of the outlet that a node inside it stands for. -/
def ownerFanOut (g : Graph U) (n : Node U) : Nat :=
  match n.owner, n.port with
  | some owner, some (.outlet, index) =>
    if index < (g.ports owner).streamOutlets then g.fanOut owner index else 0
  | _, _ => 0

/-- The outlets of a unit while they are being bound. -/
structure OutletBinding where
  pool : Pool
  outlets : Array BufferId := #[]
  sources : Array OutletSource := #[]
  /-- Buffers that nobody reads. They are held until every outlet is bound, so that no two outlets
  share one. -/
  unread : List BufferId := []

/-- Binds one outlet of a unit. -/
def bindOutlet (g : Graph U) (id : UnitId) (n : Node U) (unit : U) (inlets : Array BufferId)
    (b : OutletBinding) (outlet : Nat) : Except Fault OutletBinding :=
  let readers := g.fanOut id outlet + if outlet = 0 then g.ownerFanOut n else 0
  let source := Device.source unit outlet
  match source with
  | .pooled =>
    let (buffer, pool) := b.pool.acquire (max readers 1)
    .ok { pool
          outlets := b.outlets.push buffer
          sources := b.sources.push source
          unread := if readers = 0 then b.unread ++ [buffer] else b.unread }
  | .forward inlet => do
    let buffer := (inlets[inlet]?).getD .zero
    let pool ← b.pool.reserve buffer readers
    return { pool
             outlets := b.outlets.push buffer
             sources := b.sources.push source
             unread := b.unread }

/-- Binds the outlets of a unit whose inlets are bound, and places it. -/
def placeUnit (g : Graph U) (id : UnitId) (n : Node U) (unit : U) (inlets : Array BufferId)
    (d : Draft) : Except Fault Draft := do
  let b ← (List.range n.ports.streamOutlets).foldlM (g.bindOutlet id n unit inlets)
    { pool := d.pool }
  let d ← { d with pool := b.pool }.releaseAll (b.unread ++ inlets.toList)
  let d := d.bind id { inlets, outlets := b.outlets, sources := b.sources }
  return if n.body.computes then { d with steps := d.steps.push (.unit id) } else d

/-- The buffer at the outlet of the unit behind a subgraph's outlet. -/
def innerOutlet (g : Graph U) (d : Draft) (id : UnitId) (index : Nat) : BufferId :=
  match g.portUnit? id .outlet index with
  | none => .zero
  | some inner =>
    if d.visit inner = .placed then d.outlet inner 0 else .zero

/-- Places a node unless it waits. -/
def placeUnlessWaiting (g : Graph U) (visit : UnitId → Draft → Except Fault Draft) (d : Draft)
    (id : UnitId) : Except Fault Draft := do
  if ← g.waits d id then return d else visit id d

/-- Binds the inlets of a subgraph, so that its contents can be placed. -/
def openContents (id : UnitId) (inlets : Array BufferId) (d : Draft) : Draft :=
  (d.bind id { d.binding id with inlets }).mark id .filling

/-- Binds the outlets of a subgraph once its contents are placed, and gives its inlets back. -/
def closeContents (g : Graph U) (id : UnitId) (inlets : Array BufferId) (d : Draft) :
    Except Fault Draft :=
  let outlets := (Array.range (g.ports id).streamOutlets).map (g.innerOutlet d id)
  (d.bind id { d.binding id with outlets }).releaseAll inlets.toList

/-- Places what a subgraph holds. `visit` places one node and all that must come before it. -/
def placeContents (g : Graph U) (visit : UnitId → Draft → Except Fault Draft) (id : UnitId)
    (inlets : Array BufferId) (d : Draft) : Except Fault Draft := do
  let inside := g.children id
  let d ← (inside.filter g.isRoot).foldlM (fun d c => visit c d) (openContents id inlets d)
  let d ← inside.foldlM (g.placeUnlessWaiting visit) d
  g.closeContents id inlets d

/-- The buffer that arrives at the subgraph's inlet that a node stands for, with one more
reader. -/
def boundaryFeed (d : Draft) (n : Node U) (inlet : Nat) : Except Fault (List BufferId × Draft) :=
  match n.owner, n.port with
  | some owner, some (.inlet, index) =>
    if inlet ≠ 0 then .ok ([], d)
    else
      match (d.binding owner).inlets[index]? with
      | none => .ok ([], d)
      | some buffer => do return ([buffer], { d with pool := ← d.pool.reserve buffer 1 })
  | _, _ => .ok ([], d)

/-- Adds one more buffer to a chain of sums. -/
def addToSum (state : BufferId × Draft) (right : BufferId) : Except Fault (BufferId × Draft) := do
  let (left, d) := state
  let (out, pool) := d.pool.acquire 1
  let d := { d with pool, steps := d.steps.push (.sum left right out) }
  return (out, ← d.releaseAll [left, right])

/-- Binds one stream inlet to the sum of what it reads, all of which has been placed. -/
def mixInlet (g : Graph U) (id : UnitId) (n : Node U) (d : Draft) (inlet : Nat) :
    Except Fault (BufferId × Draft) := do
  let (feed, d) ← boundaryFeed d n inlet
  match feed ++ (g.streamSources id inlet).map fun c => d.outlet c.source c.outlet with
  | [] => return (.zero, d)
  | first :: rest => rest.foldlM addToSum (first, d)

/-- Binds one stream inlet, after placing what it reads. -/
def bindInlet (g : Graph U) (visit : UnitId → Draft → Except Fault Draft) (id : UnitId)
    (n : Node U) (d : Draft) (inlet : Nat) : Except Fault (BufferId × Draft) := do
  let d ← (g.streamSources id inlet).foldlM (fun d c => visit c.source d) d
  g.mixInlet id n d inlet

/-- Binds the stream inlets of a node from left to right. -/
def bindInlets (g : Graph U) (visit : UnitId → Draft → Except Fault Draft) (id : UnitId)
    (n : Node U) (d : Draft) : Except Fault (Array BufferId × Draft) :=
  (List.range n.ports.streamInlets).foldlM
    (fun (inlets, d) inlet => do
      let (buffer, d) ← g.bindInlet visit id n d inlet
      return (inlets.push buffer, d))
    (#[], d)

/-- Places the ordering parents of a node as far as they wait for nothing; the rest is put off. -/
def placeParents (g : Graph U) (visit : UnitId → Draft → Except Fault Draft) (id : UnitId)
    (d : Draft) : Except Fault (List UnitId × Draft) :=
  (g.orderingParents id).foldlM
    (fun (deferred, d) parent => do
      if ← g.waits d parent then return (deferred ++ [parent], d)
      else return (deferred, ← visit parent d))
    ([], d)

/-- Places a node whose owner has been reached, and all that must come before it. -/
def placeNode (g : Graph U) (visit : UnitId → Draft → Except Fault Draft) (id : UnitId)
    (n : Node U) (d : Draft) : Except Fault Draft := do
  let (deferred, d) ← g.placeParents visit id (d.mark id .binding)
  let (inlets, d) ← g.bindInlets visit id n d
  let d ← match n.body with
    | .subgraph => g.placeContents visit id inlets d
    | .device unit => g.placeUnit id n unit inlets d
  deferred.foldlM (g.placeUnlessWaiting visit) (d.mark id .placed)

/-- Whether a node is still to be planned. -/
def isUnvisited (g : Graph U) (d : Draft) (id : UnitId) : Bool :=
  g.contains id && d.visit id == .unvisited

/-- Places a node and all that must come before it. Inside a subgraph that has not been reached
yet, the subgraph goes first. No more than `depth` visits are nested. -/
def visit (g : Graph U) (depth : Nat) (id : UnitId) (d : Draft) : Except Fault Draft :=
  match g.node? id with
  | none => .ok d
  | some n =>
    if d.visit id ≠ .unvisited then .ok d
    else
      match depth with
      | 0 => .error .endless
      | depth + 1 => do
        let d ← match n.owner with
          | some owner => if g.isUnvisited d owner then visit g depth owner d else pure d
          | none => pure d
        if d.visit id ≠ .unvisited then return d
        else g.placeNode (visit g depth) id n d

/-- More visits than can be nested: no node is placed twice, and on the way to a node that is placed
lie only nodes inside it. -/
def visitDepth (g : Graph U) : Nat := (g.nodes.size + 1) * (g.nodes.size + 1)

/-- The draft before anything is placed. -/
def startDraft (g : Graph U) : Draft where
  visits := Array.replicate g.nodes.size .unvisited
  bindings := g.nodes.map fun n => ((n.map fun n => Binding.silent n.ports)).getD {}
  pool := g.pool.reset

/-- The draft with every node placed: first what leads to the ends of signals at the top level,
then the rest, which hangs in a loop of messages or on a name. -/
def fullDraft (g : Graph U) : Except Fault Draft := do
  let roots := g.ids.filter fun id => (g.owner? id).isNone && g.isRoot id
  let d ← roots.foldlM (fun d id => g.visit g.visitDepth id d) g.startDraft
  g.ids.foldlM (fun d id => g.visit g.visitDepth id d) d

/-- The plan of a graph, and the graph with that plan. A plan that is still valid is kept. -/
def compile (g : Graph U) : Except Fault (Plan × Graph U) :=
  match g.plan with
  | some plan => .ok (plan, g)
  | none => do
    let d ← g.fullDraft
    let plan : Plan := { steps := d.steps, bindings := d.bindings, buffers := d.pool.size }
    return (plan, { g with plan := some plan, pool := d.pool })

end Graph
end Patchbay
