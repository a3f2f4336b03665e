import Patchbay.Engine.Delivery

/-!
# Computing a block

A block is computed in two phases. First every event that is due before the end of the block is
handed back to its unit, one after another in order of time; events that these schedule take part.
Then the steps of the plan run.

In its step a unit without waiting messages computes the block in one piece. Otherwise the block is
split: each message is received at its offset, after all samples before it and before all samples
from it on.
-/

namespace Patchbay

variable {U : Type} [Device U]

namespace Engine

/-- More rounds of any loop than can ever be run. -/
def roundLimit : Nat := 0x4000000000000000

/-! ## Due events -/

/-- An event as it is handed back: one that is late counts as due now. -/
def onTime (e : Engine U) (event : Event) : Event :=
  if event.timestamp < e.blockStart then
    { event with message := event.message.stampedAt e.blockStart }
  else event

/-- Takes the next event that is due before a time out of the queue, and hands it back. -/
def drainOne? (stop : Float) (e : Engine U) : Option (Engine U) :=
  match e.queue.popBefore? stop with
  | none => none
  | some (event, queue) =>
    let event := e.onTime event
    some (({ e with queue }.record (.fellDue event)).handBack event)

/-- Hands back every event that is due before a time, if `rounds` suffice. -/
def drain (stop : Float) : (rounds : Nat) → Work U PUnit
  | 0 => throw .endless
  | rounds + 1 => do
    match (← get).drainOne? stop with
    | none => return
    | some e =>
      set e
      drain stop rounds

/-! ## Steps -/

/-- What a unit reads in its step. -/
def inputs (e : Engine U) (binding : Binding) : Inputs where
  pool := e.graph.pool
  inlets := binding.inlets
  hostInput := e.hostInput
  blockSize := e.settings.blockSize

/-- What a unit writes in its step, besides the samples of its outlets. -/
def outputs (e : Engine U) (n : Node U) (outlets : Array Samples) : Outputs where
  outlets := outlets
  bus :=
    match n.handle with
    | some (.link slot) => (e.graph.names.links.get? slot).map Link.bus
    | _ => none
  store :=
    match n.handle with
    | some (.store slot) => e.graph.names.stores.get? slot
    | _ => none
  hostOutput := e.hostOutput
  blockSize := e.settings.blockSize

/-- The names after a unit has written the bus or the store that its handle leads to. -/
def writeNamed (names : Names) (handle : Option Handle) (outs : Outputs) : Names :=
  match handle, outs.bus, outs.store with
  | some (.link slot), some bus, _ => names.setBus slot bus
  | some (.store slot), _, some store => names.setStore slot store
  | _, _, _ => names

/-- The engine after a unit has computed: what the unit has become, and what it has written besides
the samples of its outlets. -/
def afterCompute (id : UnitId) (handle : Option Handle) (unit : U) (outs : Outputs)
    (e : Engine U) : Engine U :=
  let names := writeNamed e.graph.names handle outs
  { e with graph := { e.graph with names }, hostOutput := outs.hostOutput }.modifyNode id
    fun n => { n with body := .device unit }

/-- How far a unit has come in its step. -/
structure Progress where
  /-- The samples of the unit's outlets, moved out of their buffers. -/
  outlets : Array Samples
  /-- The samples before this offset are computed. -/
  last : Nat := 0

/-- Lets a unit compute the samples up to an offset, from what `read` says that it reads. -/
def compute (read : Engine U → Inputs) (id : UnitId) (stop : Nat) (p : Progress) :
    Work U Progress := do
  match (← get).graph.node? id with
  | none => return p
  | some n =>
    match n.body with
    | .subgraph => return { p with last := stop }
    | .device unit =>
      modify (record · (.computed id p.last stop))
      let e ← get
      let (unit, outs) ← Work.of (Device.process unit (read e) (e.outputs n p.outlets) p.last stop)
      set (e.afterCompute id n.handle unit outs)
      return { outlets := outs.outlets, last := stop }

/-- Lets a unit compute the samples up to an offset, unless it has come as far already. -/
def computeUpTo (read : Engine U → Inputs) (id : UnitId) (stop : Nat) (p : Progress) :
    Work U Progress :=
  if p.last < stop then compute read id stop p else return p

/-- The message that a unit receives next in its step, and the engine without it. -/
def nextPending? (e : Engine U) (id : UnitId) : Option (Pending × Engine U) :=
  match (e.graph.node? id).map Node.pending with
  | some (next :: rest) => some (next, e.modifyNode id fun n => { n with pending := rest })
  | _ => none

/-- Lets a unit receive a message that has waited for its step. -/
def receivePending (e : Engine U) (id : UnitId) (next : Pending) : Engine U :=
  match (e.graph.node? id).map Node.body with
  | some (.device unit) =>
    flush (deliver (maxDepth - 1)) e.outbox.size (e.receive id unit next.inlet next.message)
  | _ => e

/-- Lets a unit receive all that waits for its step, each message at its offset, if `rounds`
suffice. -/
def computePieces (read : Engine U → Inputs) (id : UnitId) :
    (rounds : Nat) → Progress → Work U Progress
  | 0, _ => throw .endless
  | rounds + 1, p => do
    match (← get).nextPending? id with
    | none => return p
    | some (next, e) =>
      set e
      let offset := e.settings.sampleOffset next.message.timestamp e.blockStart
      let p ← computeUpTo read id offset p
      modify (receivePending · id next)
      computePieces read id rounds p

/-- The buffers that a unit writes, each with the index of its outlet. -/
def ownBuffers (binding : Binding) : List (Nat × BufferId) :=
  (binding.outlets.toList.zip binding.sources.toList).zipIdx.filterMap fun
    | ((.pooled buffer, .pooled), outlet) => some (outlet, .pooled buffer)
    | _ => none

/-- Moves the samples of the buffers that a unit writes out of the pool. -/
def takeOutlets (binding : Binding) (pool : Pool) : Except Fault (Array Samples × Pool) :=
  (ownBuffers binding).foldlM
    (fun (outlets, pool) (outlet, buffer) => do
      let (samples, pool) ← pool.moveOut buffer
      return (outlets.setIfInBounds outlet samples, pool))
    (Array.replicate binding.outlets.size #[], pool)

/-- Puts the samples that a unit has written back into their buffers. -/
def returnOutlets (binding : Binding) (outlets : Array Samples) (pool : Pool) :
    Except Fault Pool :=
  (ownBuffers binding).foldlM
    (fun pool (outlet, buffer) => pool.put buffer ((outlets[outlet]?).getD #[])) pool

/-- Works on the buffers. -/
def onPool {α : Type} (f : Pool → Except Fault (α × Pool)) : Work U α := do
  let e ← get
  let (result, pool) ← Work.of (f e.graph.pool)
  set { e with graph := { e.graph with pool } }
  return result

/-- Lets a unit compute all samples of its block, split at the messages that wait for it. -/
def computeSamples (read : Engine U → Inputs) (id : UnitId) (n : Node U) (p : Progress) :
    Work U Progress := do
  let size := (← get).settings.blockSize
  if n.pending.isEmpty then compute read id size p
  else
    let p ← computePieces read id (n.pending.length + roundLimit) p
    let p ← computeUpTo read id size p
    modify (·.modifyNode id fun n => { n with pace := .free })
    return p

/-- Lets a unit compute its block from what `read` says that it reads; the samples that it has
written at its outlets. -/
def computeBlock (read : Engine U → Inputs) (id : UnitId) (binding : Binding) :
    Work U (Array Samples) := do
  match (← get).graph.node? id with
  | none => return #[]
  | some n =>
    let outlets ← onPool (takeOutlets binding)
    let p ← computeSamples read id n { outlets }
    onPool fun pool => do return ((), ← returnOutlets binding p.outlets pool)
    return p.outlets

/-- Lets a unit compute its block from the buffers that it is bound to. -/
def runUnit (id : UnitId) (binding : Binding) : Work U PUnit := do
  let _ ← computeBlock (·.inputs binding) id binding

/-- Runs one step of a plan. -/
def runStep (plan : Plan) : Step → Work U PUnit
  | .sum left right out => onPool fun pool => do return ((), ← pool.sumInto left right out)
  | .unit id => runUnit id (plan.binding id)

/-! ## Blocks -/

/-- Samples cut, or filled up with silence, to a length. -/
def fit (xs : Samples) (length : Nat) : Samples :=
  xs.extract 0 length ++ silence (length - xs.size)

/-- The engine at the start of a block. -/
def openBlock (input : Samples) (e : Engine U) : Engine U :=
  { e with
    hostInput := fit input e.settings.inputLength
    hostOutput := silence e.settings.outputLength
    graph := { e.graph with names := e.graph.names.clearBuses }
    journal := e.journal.push (.opened e.blockStart) }

/-- Plans the graph if no plan is valid. -/
def compile : Work U Plan := do
  let e ← get
  let (plan, graph) ← Work.of e.graph.compile
  set { e with graph }
  return plan

/-- When the current block ends. -/
def blockEnd (e : Engine U) : Float := e.blockStart + e.settings.blockDuration

/-- Computes one block, and leaves the engine at the start of the next. The result is the samples
for the host, cut or filled up to a length. -/
def process (input : Samples) (outLength : Nat) : Work U Samples := do
  Work.of (checkRoom outLength sampleBytes)
  let stop := (← get).blockEnd
  modify (openBlock input)
  drain stop roundLimit
  let plan ← compile
  plan.steps.forM (runStep plan)
  let e ← get
  set { e with blockStart := stop }
  return fit e.hostOutput outLength

end Engine
end Patchbay
