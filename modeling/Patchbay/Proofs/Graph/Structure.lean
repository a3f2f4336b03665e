import Patchbay.Proofs.Graph.Shape
import Patchbay.Proofs.Names.Seats

/-!
# What every graph is like

Edits keep three things in order:

- the **wiring**: connections join ports that exist, on one level, and streams never run in a loop;
- the **nesting**: what holds a node is an older subgraph, and a port stands for one node;
- the **registry**: a node is listed under its name, and its handle leads there.

A graph in which all three are in order is `Sound`. Only the shape of a graph matters to the first
two.
-/

namespace Patchbay

open Relation

variable {U : Type}

namespace Graph

/-- Whether a stream leads from one node to another. -/
def Streams (g : Graph U) (x y : UnitId) : Prop :=
  ∃ c ∈ g.connections, g.kindOf c = .stream ∧ c.source = x ∧ c.dest = y

/-- Whether a node is another or lies inside it, at any depth. -/
def Within (g : Graph U) (x y : UnitId) : Prop :=
  ReflTransGen (fun x owner => g.owner? x = some owner) x y

/-- That connections fit the nodes that they join. -/
structure Wired (g : Graph U) : Prop where
  source : ∀ c ∈ g.connections, g.contains c.source = true
  dest : ∀ c ∈ g.connections, g.contains c.dest = true
  level : ∀ c ∈ g.connections, g.owner? c.source = g.owner? c.dest
  outlet : ∀ c ∈ g.connections, c.outlet < (g.ports c.source).outlets
  inlet : ∀ c ∈ g.connections, c.inlet < (g.ports c.dest).inlets
  streamInlet : ∀ c ∈ g.connections, g.kindOf c = .stream →
    c.inlet < (g.ports c.dest).streamInlets
  once : g.connections.Nodup
  acyclic : ∀ x, ¬ TransGen g.Streams x x

/-- That owners and the ports of subgraphs fit the nodes inside. -/
structure Nested (g : Graph U) : Prop where
  older : ∀ {x o}, g.owner? x = some o → o.index < x.index
  holder : ∀ {x o}, g.owner? x = some o → g.isSubgraph o = true
  portOwned : ∀ {x p}, g.port? x = some p → ∃ o, g.owner? x = some o
  portUnit : ∀ {x p}, g.port? x = some p → g.isSubgraph x = false
  portIndex : ∀ {x o side k}, g.owner? x = some o → g.port? x = some (side, k) →
    k < Edit.nextPort (g.ports o) side
  portOnce : ∀ {x y o p}, g.owner? x = some o → g.owner? y = some o → g.port? x = some p →
    g.port? y = some p → x = y
  inlets : ∀ {x}, g.isSubgraph x = true → (g.ports x).streamInlets ≤ (g.ports x).messageInlets

/-- That the registry and the nodes agree on who plays which role. -/
structure Registered (g : Graph U) : Prop where
  names : g.names.Sound
  seated : ∀ {x s}, x ∈ g.names.seated s ↔ (g.registration? x).map Registration.seat = some s
  handle : ∀ {x role}, g.registration? x = some role → g.handle? x = g.names.slot? role.seat
  unit : ∀ {x role}, g.registration? x = some role → g.isSubgraph x = false

/-- What is true of every graph that edits lead to. -/
structure Sound (g : Graph U) : Prop where
  wired : g.Wired
  nested : g.Nested
  registered : g.Registered

/-! ## The empty graph -/

theorem node?_empty (blockSize : Nat) (x : UnitId) : (empty blockSize : Graph U).node? x = none := by
  simp [node?, empty]

theorem wired_empty (blockSize : Nat) : (empty blockSize : Graph U).Wired where
  source c hc := by cases hc
  dest c hc := by cases hc
  level c hc := by cases hc
  outlet c hc := by cases hc
  inlet c hc := by cases hc
  streamInlet c hc := by cases hc
  once := List.nodup_nil
  acyclic x hx := by
    obtain ⟨y, ⟨c, hc, -⟩, -⟩ := TransGen.head'_iff.1 hx
    cases hc

theorem nested_empty (blockSize : Nat) : (empty blockSize : Graph U).Nested where
  older h := by simp [owner?, node?_empty] at h
  holder h := by simp [owner?, node?_empty] at h
  portOwned h := by simp [port?, node?_empty] at h
  portUnit h := by simp [port?, node?_empty] at h
  portIndex h := by simp [owner?, node?_empty] at h
  portOnce h := by simp [owner?, node?_empty] at h
  inlets h := by simp [isSubgraph, node?_empty] at h

theorem registered_empty (blockSize : Nat) : (empty blockSize : Graph U).Registered where
  names := Names.sound_fresh blockSize
  seated {x s} := by
    have : (empty blockSize : Graph U).names.seated s = [] := by
      cases s <;> rfl
    simp [this, registration?, node?_empty]
  handle h := by simp [registration?, node?_empty] at h
  unit h := by simp [registration?, node?_empty] at h

theorem sound_empty (blockSize : Nat) : (empty blockSize : Graph U).Sound :=
  ⟨wired_empty blockSize, nested_empty blockSize, registered_empty blockSize⟩

/-! ## Reading the structure -/

theorem mem_streamSources {g : Graph U} {c : Connection} {x : UnitId} {i : Nat} :
    c ∈ g.streamSources x i ↔
      c ∈ g.connections ∧ g.kindOf c = .stream ∧ c.dest = x ∧ c.inlet = i := by
  simp [streamSources, and_assoc, and_left_comm, and_comm]

theorem mem_messageSources {g : Graph U} {c : Connection} {x : UnitId} {i : Nat} :
    c ∈ g.messageSources x i ↔
      c ∈ g.connections ∧ g.kindOf c = .message ∧ c.dest = x ∧ c.inlet = i := by
  simp [messageSources, and_assoc, and_left_comm, and_comm]

theorem mem_outgoing {g : Graph U} {c : Connection} {x : UnitId} {o : Nat} :
    c ∈ g.outgoing x o ↔ c ∈ g.connections ∧ c.source = x ∧ c.outlet = o := by
  simp [outgoing]

theorem outlet_lt_of_kindOf {g : Graph U} {c : Connection} (h : g.kindOf c = .stream) :
    c.outlet < (g.ports c.source).streamOutlets := by
  simp only [kindOf, Ports.outletKind] at h
  split at h
  · assumption
  · split at h <;> simp at h

theorem kindOf_eq_stream {g : Graph U} {c : Connection} :
    g.kindOf c = .stream ↔ c.outlet < (g.ports c.source).streamOutlets :=
  ⟨outlet_lt_of_kindOf, fun h => by simp [kindOf, Ports.outletKind, h]⟩

theorem Within.refl (g : Graph U) (x : UnitId) : g.Within x x := ReflTransGen.refl

theorem Within.trans {g : Graph U} {x y z : UnitId} (h : g.Within x y) (h' : g.Within y z) :
    g.Within x z := ReflTransGen.trans h h'

/-- What lies within a node is the node, or lies within something that the node holds. -/
theorem Within.cases_owner {g : Graph U} {x y : UnitId} (h : g.Within x y) :
    x = y ∨ ∃ o, g.owner? x = some o ∧ g.Within o y := ReflTransGen.cases_head h

theorem Within.of_owner {g : Graph U} {x o y : UnitId} (h : g.owner? x = some o)
    (h' : g.Within o y) : g.Within x y := ReflTransGen.head h h'

namespace Nested

variable {g : Graph U} (hg : g.Nested)
include hg

theorem index_le {x y : UnitId} (h : g.Within x y) : y.index ≤ x.index := by
  induction h with
  | refl => exact Nat.le_refl _
  | tail _ h ih => exact Nat.le_trans (Nat.le_of_lt (hg.older h)) ih

/-- Two nodes of one level do not lie within each other. -/
theorem eq_of_within_of_level {x y : UnitId} (h : g.Within x y) (hl : g.owner? x = g.owner? y) :
    x = y := by
  rcases h.cases_owner with h | ⟨o, ho, h⟩
  · exact h
  · have h₁ := hg.index_le h
    have h₂ := hg.older (hl ▸ ho)
    omega

theorem mem_children {x c : UnitId} : c ∈ g.children x ↔ g.owner? c = some x := by
  rw [Graph.mem_children]
  exact ⟨fun h => h.2, fun h => ⟨hg.older h, h⟩⟩

/-- The node behind a port is the one that stands for it. -/
theorem portUnit?_eq_some {x c : UnitId} {side : Side} {k : Nat} :
    g.portUnit? x side k = some c ↔ g.owner? c = some x ∧ g.port? c = some (side, k) := by
  have hport : ∀ c, (g.node? c).any (·.port == some (side, k)) = true ↔
      g.port? c = some (side, k) := by
    intro c
    cases h : g.node? c <;> simp [port?, h]
  constructor
  · intro h
    have hc := List.find?_some h
    have hm := List.mem_of_find?_eq_some h
    exact ⟨hg.mem_children.1 hm, (hport c).1 hc⟩
  · rintro ⟨ho, hp⟩
    cases hf : g.portUnit? x side k with
    | none => simpa [hport, hp] using List.find?_eq_none.1 hf c (hg.mem_children.2 ho)
    | some c' =>
      have hc' : g.port? c' = some (side, k) := (hport c').1 (by simpa using List.find?_some hf)
      have ho' := hg.mem_children.1 (List.mem_of_find?_eq_some hf)
      rw [hg.portOnce ho' ho hc' hp]

end Nested

/-! ## Graphs of one shape -/

namespace SameShape

variable {g g' : Graph U} (h : SameShape g g')
include h

theorem streams : g'.Streams = g.Streams := by
  funext x y
  simp only [Streams, h.connections, h.kindOf]

theorem within : g'.Within = g.Within := by
  funext x y
  simp only [Graph.Within, h.owner?]

theorem wired (hg : g.Wired) : g'.Wired where
  source c hc := by simpa [h.contains] using hg.source c (h.connections ▸ hc)
  dest c hc := by simpa [h.contains] using hg.dest c (h.connections ▸ hc)
  level c hc := by simpa [h.owner?] using hg.level c (h.connections ▸ hc)
  outlet c hc := by simpa [h.ports] using hg.outlet c (h.connections ▸ hc)
  inlet c hc := by simpa [h.ports] using hg.inlet c (h.connections ▸ hc)
  streamInlet c hc := by
    simpa [h.ports, h.kindOf] using hg.streamInlet c (h.connections ▸ hc)
  once := h.connections ▸ hg.once
  acyclic := h.streams ▸ hg.acyclic

theorem nested (hg : g.Nested) : g'.Nested where
  older hx := hg.older (h.owner? _ ▸ hx)
  holder hx := h.isSubgraph _ ▸ hg.holder (h.owner? _ ▸ hx)
  portOwned hx := h.owner? _ ▸ hg.portOwned (h.port? _ ▸ hx)
  portUnit hx := h.isSubgraph _ ▸ hg.portUnit (h.port? _ ▸ hx)
  portIndex ho hp := h.ports _ ▸ hg.portIndex (h.owner? _ ▸ ho) (h.port? _ ▸ hp)
  portOnce hx hy hpx hpy :=
    hg.portOnce (h.owner? _ ▸ hx) (h.owner? _ ▸ hy) (h.port? _ ▸ hpx) (h.port? _ ▸ hpy)
  inlets hx := h.ports _ ▸ hg.inlets (h.isSubgraph _ ▸ hx)

theorem registered (hn : g.names.SameSeats g'.names) (hg : g.Registered) : g'.Registered where
  names := hn.sound hg.names
  seated := by
    intro x s
    rw [hn.seated, h.registration?]
    exact hg.seated
  handle hx := by
    rw [h.handle?, hn.slot?]
    exact hg.handle (h.registration? _ ▸ hx)
  unit hx := h.isSubgraph _ ▸ hg.unit (h.registration? _ ▸ hx)

end SameShape
end Graph
end Patchbay
