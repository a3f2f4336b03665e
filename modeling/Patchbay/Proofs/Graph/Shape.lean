import Mathlib
import Patchbay.Graph.Edit

/-!
# The shape of a graph

The **shape** of a graph is what its plan depends on: which nodes there are, their ports, roles and
owners, and how they are connected. Edits change the shape. What units become while they work does
not, and neither do the messages that wait inside them.

Every view of a graph that this library reasons about is a function of the shape, so two graphs of
one shape look alike (`SameShape`).
-/

namespace Patchbay

variable {U : Type}

/-- What only edits change of a node. -/
structure NodeShape where
  isSubgraph : Bool
  ports : Ports
  registration : Option Registration
  handle : Option Handle
  owner : Option UnitId
  port : Option (Side × Nat)
deriving DecidableEq

/-- The shape of a node. -/
def Node.shape (n : Node U) : NodeShape where
  isSubgraph := n.isSubgraph
  ports := n.ports
  registration := n.registration
  handle := n.handle
  owner := n.owner
  port := n.port

namespace Graph

/-- The shape of the node with a number. -/
def shape? (g : Graph U) (id : UnitId) : Option NodeShape := (g.node? id).map Node.shape

/-- The port of its owner that a node stands for. -/
def port? (g : Graph U) (id : UnitId) : Option (Side × Nat) := (g.node? id).bind Node.port

/-- The role of a node under a name. -/
def registration? (g : Graph U) (id : UnitId) : Option Registration :=
  (g.node? id).bind Node.registration

/-- What the role of a node leads to. -/
def handle? (g : Graph U) (id : UnitId) : Option Handle := (g.node? id).bind Node.handle

/-! ## Views of single nodes -/

theorem node?_eq (g : Graph U) (id : UnitId) : g.node? id = (g.nodes[id.index]?).join := rfl

theorem lt_size_of_node? {g : Graph U} {id : UnitId} {n : Node U} (h : g.node? id = some n) :
    id.index < g.nodes.size := by
  cases hn : g.nodes[id.index]? with
  | none => simp [node?_eq, hn] at h
  | some _ => exact (Array.getElem?_eq_some_iff.1 hn).1

theorem contains_iff {g : Graph U} {id : UnitId} :
    g.contains id = true ↔ ∃ n, g.node? id = some n := by
  simp [contains, Option.isSome_iff_exists]

theorem lt_size_of_contains {g : Graph U} {id : UnitId} (h : g.contains id = true) :
    id.index < g.nodes.size := by
  obtain ⟨n, hn⟩ := contains_iff.1 h
  exact lt_size_of_node? hn

theorem contains_of_owner? {g : Graph U} {id o : UnitId} (h : g.owner? id = some o) :
    g.contains id = true := by
  obtain ⟨n, hn, -⟩ := Option.bind_eq_some_iff.1 h
  exact contains_iff.2 ⟨n, hn⟩

theorem contains_of_isSubgraph {g : Graph U} {id : UnitId} (h : g.isSubgraph id = true) :
    g.contains id = true := by
  cases hn : g.node? id with
  | none => simp [isSubgraph, hn] at h
  | some n => exact contains_iff.2 ⟨n, hn⟩

theorem mem_ids {g : Graph U} {id : UnitId} : id ∈ g.ids ↔ g.contains id = true := by
  simp only [ids, List.mem_filter, List.mem_map, List.mem_range]
  constructor
  · exact fun h => h.2
  · exact fun h => ⟨⟨id.index, lt_size_of_contains h, rfl⟩, h⟩

theorem mem_children {g : Graph U} {id c : UnitId} :
    c ∈ g.children id ↔ id.index < c.index ∧ g.owner? c = some id := by
  simp only [children, List.mem_filter, mem_ids, Bool.and_eq_true, decide_eq_true_eq, beq_iff_eq]
  constructor
  · exact fun h => h.2
  · exact fun h => ⟨contains_of_owner? h.2, h⟩

/-! ## Views of the shape -/

theorem contains_eq_shape (g : Graph U) (id : UnitId) : g.contains id = (g.shape? id).isSome := by
  simp [contains, shape?]

theorem owner?_eq_shape (g : Graph U) (id : UnitId) :
    g.owner? id = (g.shape? id).bind NodeShape.owner := by
  cases h : g.node? id <;> simp [owner?, shape?, h, Node.shape]

theorem port?_eq_shape (g : Graph U) (id : UnitId) :
    g.port? id = (g.shape? id).bind NodeShape.port := by
  cases h : g.node? id <;> simp [port?, shape?, h, Node.shape]

theorem registration?_eq_shape (g : Graph U) (id : UnitId) :
    g.registration? id = (g.shape? id).bind NodeShape.registration := by
  cases h : g.node? id <;> simp [registration?, shape?, h, Node.shape]

theorem handle?_eq_shape (g : Graph U) (id : UnitId) :
    g.handle? id = (g.shape? id).bind NodeShape.handle := by
  cases h : g.node? id <;> simp [handle?, shape?, h, Node.shape]

theorem ports_eq_shape (g : Graph U) (id : UnitId) :
    g.ports id = ((g.shape? id).map NodeShape.ports).getD {} := by
  cases h : g.node? id <;> simp [ports, shape?, h, Node.shape]

theorem isSubgraph_eq_shape (g : Graph U) (id : UnitId) :
    g.isSubgraph id = (g.shape? id).any NodeShape.isSubgraph := by
  cases h : g.node? id <;> simp [isSubgraph, shape?, h, Node.shape]

/-! ## Graphs of one shape -/

/-- That two graphs have the same shape. -/
structure SameShape (g g' : Graph U) : Prop where
  size : g'.nodes.size = g.nodes.size
  shape : ∀ id, g'.shape? id = g.shape? id
  connections : g'.connections = g.connections

namespace SameShape

variable {g g' g'' : Graph U}

theorem refl (g : Graph U) : SameShape g g := ⟨rfl, fun _ => rfl, rfl⟩

theorem symm (h : SameShape g g') : SameShape g' g :=
  ⟨h.size.symm, fun id => (h.shape id).symm, h.connections.symm⟩

theorem trans (h : SameShape g g') (h' : SameShape g' g'') : SameShape g g'' where
  size := h'.size.trans h.size
  shape id := (h'.shape id).trans (h.shape id)
  connections := h'.connections.trans h.connections

theorem contains (h : SameShape g g') (id : UnitId) : g'.contains id = g.contains id := by
  rw [contains_eq_shape, contains_eq_shape, h.shape]

theorem owner? (h : SameShape g g') (id : UnitId) : g'.owner? id = g.owner? id := by
  rw [owner?_eq_shape, owner?_eq_shape, h.shape]

theorem port? (h : SameShape g g') (id : UnitId) : g'.port? id = g.port? id := by
  rw [port?_eq_shape, port?_eq_shape, h.shape]

theorem registration? (h : SameShape g g') (id : UnitId) :
    g'.registration? id = g.registration? id := by
  rw [registration?_eq_shape, registration?_eq_shape, h.shape]

theorem handle? (h : SameShape g g') (id : UnitId) : g'.handle? id = g.handle? id := by
  rw [handle?_eq_shape, handle?_eq_shape, h.shape]

theorem ports (h : SameShape g g') (id : UnitId) : g'.ports id = g.ports id := by
  rw [ports_eq_shape, ports_eq_shape, h.shape]

theorem isSubgraph (h : SameShape g g') (id : UnitId) : g'.isSubgraph id = g.isSubgraph id := by
  rw [isSubgraph_eq_shape, isSubgraph_eq_shape, h.shape]

theorem kindOf (h : SameShape g g') (c : Connection) : g'.kindOf c = g.kindOf c := by
  simp [Graph.kindOf, h.ports]

end SameShape

/-! ## Changes of single nodes -/

theorem node?_modifyNode (g : Graph U) (id x : UnitId) (f : Node U → Node U) :
    (g.modifyNode id f).node? x = if x = id then (g.node? x).map f else g.node? x := by
  simp only [node?_eq, modifyNode, Array.getElem?_modify]
  by_cases h : x = id
  · subst h
    cases g.nodes[x.index]? <;> simp
  · have : id.index ≠ x.index := fun he => h (by cases x; cases id; simp_all)
    simp [h, this]

@[simp]
theorem size_modifyNode (g : Graph U) (id : UnitId) (f : Node U → Node U) :
    (g.modifyNode id f).nodes.size = g.nodes.size := by simp [modifyNode]

/-- Changing what a node is, or what waits in it, keeps the shape. -/
theorem sameShape_modifyNode (g : Graph U) (id : UnitId) {f : Node U → Node U}
    (hf : ∀ n, g.node? id = some n → (f n).shape = n.shape) : SameShape g (g.modifyNode id f) where
  size := by simp
  shape x := by
    simp only [shape?, node?_modifyNode]
    split
    · next hx =>
      subst hx
      cases hn : g.node? x with
      | none => rfl
      | some n => simp [hf n hn]
    · rfl
  connections := rfl

end Graph

/-- Telling a unit about its connections does not change what kind of node it is. -/
theorem Body.isSubgraph_rewired [Device U] (inlet : Nat) (counts : List Nat) (n : Node U) :
    ({ n with body := n.body.rewired inlet counts } : Node U).shape = n.shape := by
  cases hb : n.body <;> simp [Node.shape, Node.isSubgraph, hb, Body.rewired]

namespace Edit

variable [Device U]

theorem sameShape_notify (g : Graph U) (id : UnitId) (inlet : Nat) (counts : List Nat) :
    g.SameShape (notify g id inlet counts) := by
  have h := g.sameShape_modifyNode id fun n _ => Body.isSubgraph_rewired inlet counts n
  exact ⟨h.size, h.shape, h.connections⟩

theorem sameShape_tell (g : Graph U) (id : UnitId) (inlet : Nat) :
    g.SameShape (tell g id inlet) := sameShape_notify ..

end Edit
end Patchbay
