import Patchbay.Device
import Patchbay.Plan

/-!
# Graphs of units

A **graph** holds units, subgraphs and the connections between them. All of them lie side by side
in one array of nodes; a node inside a subgraph names it as its owner, and a connection joins nodes
of one owner. An owner is always older than what it holds.

A subgraph has one port for each unit inside it that stands for a side. Its ports only ever grow,
and no port changes its place or its kind.

The kind of a connection is not stored: it is the kind of the outlet that it leaves. Connections
are kept in the order in which they were made, and so are, in every list below, those at one port.
-/

namespace Patchbay

/-- A message that waits inside a unit for its offset in the block. -/
structure Pending where
  inlet : Nat
  message : Message
deriving DecidableEq

/-- What a node of a graph is. -/
inductive Body (U : Type) where
  | device (unit : U)
  | subgraph

/-- How a unit goes about its next block. -/
inductive Pace where
  /-- The block is computed in one piece. -/
  | free
  /-- The block is split at each message. -/
  | aware
deriving DecidableEq

/-- A unit or subgraph at its place in a graph. -/
structure Node (U : Type) where
  body : Body U
  ports : Ports
  /-- The role under which the node is registered. -/
  registration : Option Registration := none
  /-- What the role leads to. -/
  handle : Option Handle := none
  /-- The subgraph that holds the node. -/
  owner : Option UnitId := none
  /-- The port of its owner that the node stands for. -/
  port : Option (Side × Nat) := none
  /-- Messages that wait for the node's next step, in order of time. -/
  pending : List Pending := []
  /-- How the node goes about its next step. -/
  pace : Pace := .free

/-- That a unit was told of a change in its stream connections. -/
structure Notice where
  unit : UnitId
  inlet : Nat
  /-- The number of stream connections at each inlet of the unit. -/
  counts : List Nat
deriving DecidableEq

/-- Units, their connections, and the plan made from them. -/
structure Graph (U : Type) where
  /-- The nodes by number. A node that was removed leaves its place empty. -/
  nodes : Array (Option (Node U)) := #[]
  /-- The connections, oldest first. -/
  connections : List Connection := []
  names : Names
  pool : Pool
  /-- The plan, while no edit has outdated it. -/
  plan : Option Plan := none
  /-- What units were told of changes in their stream connections, oldest first. -/
  notices : Array Notice := #[]

variable {U : Type}

/-- The label of subgraphs. -/
def subgraphLabel : String := "pd"

namespace Body

variable [Device U]

/-- The label of a node. -/
def label : Body U → String
  | device u => Device.label u
  | subgraph => subgraphLabel

/-- The ports that a node starts with. -/
def ports : Body U → Ports
  | device u => Device.ports u
  | subgraph => {}

/-- The role that a node plays under a name. -/
def registration : Body U → Option Registration
  | device u => Device.registration u
  | subgraph => none

/-- The side that a node stands for when it is placed in a subgraph. -/
def side : Body U → Option Side
  | device u => Device.side u
  | subgraph => none

/-- Whether a node computes samples. -/
def computes : Body U → Bool
  | device u => Device.computes u
  | subgraph => false

/-- Whether planning starts from a node even if something is connected to it. -/
def isSink : Body U → Bool
  | device u => Device.isSink u
  | subgraph => false

/-- A node after a change in its stream connections. -/
def rewired (inlet : Nat) (counts : List Nat) : Body U → Body U
  | device u => device (Device.rewired u inlet counts)
  | subgraph => subgraph

end Body

namespace Node

/-- Whether a node is a subgraph. -/
def isSubgraph (n : Node U) : Bool :=
  match n.body with
  | .subgraph => true
  | .device _ => false

end Node

namespace Graph

/-- A graph without units. -/
def empty (blockSize : Nat) : Graph U := { names := { blockSize }, pool := { blockSize } }

/-- The samples in a block. -/
def blockSize (g : Graph U) : Nat := g.pool.blockSize

/-- The node with a number. -/
def node? (g : Graph U) (id : UnitId) : Option (Node U) := (g.nodes[id.index]?).join

/-- Whether there is a node with a number. -/
def contains (g : Graph U) (id : UnitId) : Bool := (g.node? id).isSome

/-- The numbers of all nodes, oldest first. -/
def ids (g : Graph U) : List UnitId :=
  ((List.range g.nodes.size).map UnitId.mk).filter g.contains

/-- The number of nodes. -/
def size (g : Graph U) : Nat := g.ids.length

/-- Changes a node, if there is one with the number. -/
def modifyNode (g : Graph U) (id : UnitId) (f : Node U → Node U) : Graph U :=
  { g with nodes := g.nodes.modify id.index (·.map f) }

/-- The owner of a node. -/
def owner? (g : Graph U) (id : UnitId) : Option UnitId := (g.node? id).bind Node.owner

/-- The ports of a node; a missing one has none. -/
def ports (g : Graph U) (id : UnitId) : Ports := ((g.node? id).map Node.ports).getD {}

/-- Whether a node is a subgraph. -/
def isSubgraph (g : Graph U) (id : UnitId) : Bool := (g.node? id).any Node.isSubgraph

/-- The nodes directly inside a subgraph, oldest first. -/
def children (g : Graph U) (id : UnitId) : List UnitId :=
  g.ids.filter fun c => id.index < c.index && g.owner? c == some id

/-- The node behind a port of a subgraph. -/
def portUnit? (g : Graph U) (id : UnitId) (side : Side) (index : Nat) : Option UnitId :=
  (g.children id).find? fun c => (g.node? c).any (·.port == some (side, index))

theorem lt_of_mem_children {g : Graph U} {id c : UnitId} (h : c ∈ g.children id) :
    id.index < c.index ∧ c.index < g.nodes.size := by
  simp only [children, ids, List.mem_filter, List.mem_map, List.mem_range, Bool.and_eq_true,
    decide_eq_true_eq] at h
  obtain ⟨⟨⟨n, hn, rfl⟩, _⟩, hlt, _⟩ := h
  exact ⟨hlt, hn⟩

/-- A node followed by everything inside it, each subgraph before its contents. -/
def descendants (g : Graph U) (id : UnitId) : List UnitId :=
  if g.contains id then
    id :: (g.children id).attach.flatMap fun c => descendants g c.val
  else []
termination_by g.nodes.size - id.index
decreasing_by
  have := lt_of_mem_children c.property
  omega

/-- A node behind everything inside it, each subgraph after its contents. -/
def contentsFirst (g : Graph U) (id : UnitId) : List UnitId :=
  (g.children id).attach.flatMap (fun c => contentsFirst g c.val) ++ [id]
termination_by g.nodes.size - id.index
decreasing_by
  have := lt_of_mem_children c.property
  omega

/-! ## Connections -/

/-- The kind of a connection: that of the outlet it leaves. -/
def kindOf (g : Graph U) (c : Connection) : ConnectionKind :=
  ((g.ports c.source).outletKind c.outlet).getD .message

/-- The stream connections at an inlet. -/
def streamSources (g : Graph U) (id : UnitId) (inlet : Nat) : List Connection :=
  g.connections.filter fun c => c.dest == id && c.inlet == inlet && g.kindOf c == .stream

/-- The message connections at an inlet. -/
def messageSources (g : Graph U) (id : UnitId) (inlet : Nat) : List Connection :=
  g.connections.filter fun c => c.dest == id && c.inlet == inlet && g.kindOf c == .message

/-- The connections that leave an outlet. -/
def outgoing (g : Graph U) (id : UnitId) (outlet : Nat) : List Connection :=
  g.connections.filter fun c => c.source == id && c.outlet == outlet

/-- The number of connections that leave an outlet. -/
def fanOut (g : Graph U) (id : UnitId) (outlet : Nat) : Nat := (g.outgoing id outlet).length

/-- The number of stream connections at each inlet of a node. -/
def streamCounts (g : Graph U) (id : UnitId) : List Nat :=
  (List.range (g.ports id).inlets).map fun inlet => (g.streamSources id inlet).length

/-- Every connection to a node, streams before messages and each by inlet. -/
def allIncoming (g : Graph U) (id : UnitId) : List Connection :=
  let inlets := List.range (g.ports id).inlets
  inlets.flatMap (g.streamSources id) ++ inlets.flatMap (g.messageSources id)

/-- Every connection from a node, by outlet. -/
def allOutgoing (g : Graph U) (id : UnitId) : List Connection :=
  (List.range (g.ports id).outlets).flatMap (g.outgoing id)

/-- Every connection, by the node and the outlet that it leaves. -/
def allConnections (g : Graph U) : List Connection := g.ids.flatMap g.allOutgoing

end Graph
end Patchbay
