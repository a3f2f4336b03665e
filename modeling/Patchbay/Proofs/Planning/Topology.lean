import Patchbay.Proofs.Engine.Delivery
import Patchbay.Proofs.Graph.Fronts
import Patchbay.Proofs.Graph.Resembling
import Patchbay.Proofs.Planning.Order

/-!
# Graphs of one topology

Two graphs have the same **topology** if the same units sit in them under the same numbers, are
connected in the same order, and are listed in the same order under the same names. They may have had
different histories: nodes that are gone leave different gaps, and a name may lead to another slot. All
that planning asks of a graph it answers by its topology.
-/

namespace Patchbay

variable {U : Type} [Device U]

/-- That planning treats two units alike. -/
structure PlannedAlike (u v : U) : Prop where
  computes : Device.computes v = Device.computes u
  isSink : Device.isSink v = Device.isSink u
  source : ∀ outlet, Device.source v outlet = Device.source u outlet

theorem PlannedAlike.refl (u : U) : PlannedAlike u u := ⟨rfl, rfl, fun _ => rfl⟩

theorem PlannedAlike.symm {u v : U} (h : PlannedAlike u v) : PlannedAlike v u :=
  ⟨h.computes.symm, h.isSink.symm, fun o => (h.source o).symm⟩

theorem PlannedAlike.trans {u v w : U} (h : PlannedAlike u v) (h' : PlannedAlike v w) :
    PlannedAlike u w :=
  ⟨h'.computes.trans h.computes, h'.isSink.trans h.isSink,
    fun o => (h'.source o).trans (h.source o)⟩

/-- That planning treats two nodes alike. What a node's role leads to, and what waits in it, may
differ. -/
structure Node.PlannedAlike (n n' : Node U) : Prop where
  body : n.body.Becomes Patchbay.PlannedAlike n'.body
  ports : n'.ports = n.ports
  registration : n'.registration = n.registration
  owner : n'.owner = n.owner
  port : n'.port = n.port

theorem Node.PlannedAlike.refl (n : Node U) : n.PlannedAlike n :=
  ⟨Body.Becomes.refl Patchbay.PlannedAlike.refl _, rfl, rfl, rfl, rfl⟩

theorem Node.PlannedAlike.symm {n n' : Node U} (h : n.PlannedAlike n') : n'.PlannedAlike n :=
  ⟨Body.Becomes.symm (fun _ _ => Patchbay.PlannedAlike.symm) h.body, h.ports.symm,
    h.registration.symm, h.owner.symm, h.port.symm⟩

theorem Node.PlannedAlike.trans {n n' n'' : Node U} (h : n.PlannedAlike n')
    (h' : n'.PlannedAlike n'') : n.PlannedAlike n'' :=
  have htrans : ∀ u v w : U, Patchbay.PlannedAlike u v → Patchbay.PlannedAlike v w →
      Patchbay.PlannedAlike u w := fun _ _ _ h h' => h.trans h'
  ⟨Body.Becomes.trans htrans h.body h'.body,
    h'.ports.trans h.ports, h'.registration.trans h.registration, h'.owner.trans h.owner,
    h'.port.trans h.port⟩

namespace Node.PlannedAlike

variable {n n' : Node U} (h : n.PlannedAlike n')
include h

theorem isSubgraph : n'.isSubgraph = n.isSubgraph := by
  have hb := h.body
  cases hn : n.body <;> cases hn' : n'.body <;> simp_all [Node.isSubgraph, Body.Becomes]

theorem isSink : n'.body.isSink = n.body.isSink := by
  have hb := h.body
  cases hn : n.body <;> cases hn' : n'.body <;> simp only [hn, hn', Body.Becomes] at hb
  · exact hb.isSink
  · rfl

theorem computes : n'.body.computes = n.body.computes := by
  have hb := h.body
  cases hn : n.body <;> cases hn' : n'.body <;> simp only [hn, hn', Body.Becomes] at hb
  · exact hb.computes
  · rfl

end Node.PlannedAlike

namespace Graph

/-- That two graphs have the same topology. -/
structure SameTopology (g g' : Graph U) : Prop where
  nodes : ∀ x, Option.Rel Node.PlannedAlike (g.node? x) (g'.node? x)
  streams : ∀ x i, g'.streamSources x i = g.streamSources x i
  messages : ∀ x i, g'.messageSources x i = g.messageSources x i
  outgoing : ∀ x o, g'.outgoing x o = g.outgoing x o
  seated : ∀ s, g'.names.seated s = g.names.seated s

/-- The nodes that a name puts before a node. -/
def namedBefore (g : Graph U) (x : UnitId) : List UnitId :=
  match g.registration? x with
  | some (.collector family name) => g.names.seated (.emitter family name)
  | some (.accessor .delayLine name) => g.names.seated (.owner .delayLine name)
  | _ => []

omit [Device U] in
/-- The handles of a sound registry lead planning to the lists of names. -/
theorem orderingParents_eq {g : Graph U} (hg : g.Registered) (x : UnitId) :
    g.orderingParents x =
      ((List.range (g.ports x).inlets).flatMap fun i => (g.messageSources x i).map (·.source)) ++
        g.namedBefore x := by
  cases hn : g.node? x with
  | none => simp [orderingParents, namedBefore, registration?, ports, hn, Ports.inlets]
  | some n =>
    have hports : g.ports x = n.ports := by simp [ports, hn]
    have hreg : g.registration? x = n.registration := by simp [registration?, hn]
    have hhandle : g.handle? x = n.handle := by simp [handle?, hn]
    simp only [orderingParents, hn, hports]
    refine congrArg _ ?_
    rw [namedBefore, hreg]
    cases hr : n.registration with
    | none => rfl
    | some role =>
      have hself : x ∈ g.names.seated role.seat := hg.seated.2 (by rw [hreg, hr]; rfl)
      have hslot : n.handle = g.names.slot? role.seat := by
        rw [← hhandle]
        exact hg.handle (by rw [hreg, hr])
      cases role with
      | collector family name =>
        obtain ⟨slot, h⟩ := Names.slot?_collector (List.ne_nil_of_mem hself)
        simp only [hslot.trans h, Names.emitters_of_slot h hg.names]
      | accessor kind name =>
        obtain ⟨slot, h⟩ := Names.slot?_accessor (List.ne_nil_of_mem hself)
        cases kind with
        | table => simp only
        | delayLine => simp only [hslot.trans h, Names.owners_of_slot h hg.names]
      | emitter family name => rfl
      | receiver name => rfl
      | owner kind name length => rfl

namespace SameTopology

variable {g g' g'' : Graph U}

theorem node {x : UnitId} (h : g.SameTopology g') {n : Node U} (hn : g.node? x = some n) :
    ∃ n', g'.node? x = some n' ∧ n.PlannedAlike n' := by
  have hx := h.nodes x
  rw [hn] at hx
  cases hn' : g'.node? x with
  | none =>
    rw [hn'] at hx
    cases hx
  | some n' =>
    rw [hn'] at hx
    cases hx with
    | some hnn => exact ⟨n', rfl, hnn⟩

theorem refl (g : Graph U) : g.SameTopology g where
  nodes x := by
    cases g.node? x with
    | none => exact .none
    | some n => exact .some (.refl n)
  streams _ _ := rfl
  messages _ _ := rfl
  outgoing _ _ := rfl
  seated _ := rfl

theorem symm (h : g.SameTopology g') : g'.SameTopology g where
  nodes x := by
    have hx := h.nodes x
    revert hx
    cases g.node? x <;> cases g'.node? x <;> rintro ⟨⟩
    · exact .none
    · next hnn => exact .some hnn.symm
  streams x i := (h.streams x i).symm
  messages x i := (h.messages x i).symm
  outgoing x o := (h.outgoing x o).symm
  seated s := (h.seated s).symm

theorem trans (h : g.SameTopology g') (h' : g'.SameTopology g'') : g.SameTopology g'' where
  nodes x := by
    have hx := h.nodes x
    have hx' := h'.nodes x
    revert hx hx'
    cases g.node? x <;> cases g'.node? x <;> cases g''.node? x <;> rintro ⟨⟩ ⟨⟩
    · exact .none
    · next hnn hnn' => exact .some (hnn.trans hnn')
  streams x i := (h'.streams x i).trans (h.streams x i)
  messages x i := (h'.messages x i).trans (h.messages x i)
  outgoing x o := (h'.outgoing x o).trans (h.outgoing x o)
  seated s := (h'.seated s).trans (h.seated s)

section Views

variable (h : g.SameTopology g')
include h

theorem node_none {x : UnitId} (hn : g.node? x = none) : g'.node? x = none := by
  have hx := h.nodes x
  rw [hn] at hx
  cases hn' : g'.node? x with
  | none => rfl
  | some n' =>
    rw [hn'] at hx
    cases hx

/-- A view of single nodes that planning may take shows the same in both graphs. -/
theorem view {α : Type} (f : Option (Node U) → α)
    (hf : ∀ n n' : Node U, n.PlannedAlike n' → f (some n') = f (some n)) (x : UnitId) :
    f (g'.node? x) = f (g.node? x) := by
  cases hn : g.node? x with
  | none => rw [h.node_none hn]
  | some n =>
    obtain ⟨n', hn', hnn⟩ := h.node hn
    rw [hn', hf n n' hnn]

theorem contains (x : UnitId) : g'.contains x = g.contains x :=
  h.view Option.isSome (fun _ _ _ => rfl) x

theorem ports (x : UnitId) : g'.ports x = g.ports x :=
  h.view (fun n => (n.map Node.ports).getD {}) (fun _ _ hn => hn.ports) x

theorem owner? (x : UnitId) : g'.owner? x = g.owner? x :=
  h.view (·.bind Node.owner) (fun _ _ hn => hn.owner) x

theorem port? (x : UnitId) : g'.port? x = g.port? x :=
  h.view (·.bind Node.port) (fun _ _ hn => hn.port) x

theorem registration? (x : UnitId) : g'.registration? x = g.registration? x :=
  h.view (·.bind Node.registration) (fun _ _ hn => hn.registration) x

theorem ids : g'.ids = g.ids := by
  have hsorted : ∀ g : Graph U, (g.ids.map UnitId.index).Pairwise (· < ·) := fun g =>
    List.pairwise_map.2 g.pairwise_ids
  have hmem : ∀ i, i ∈ g'.ids.map UnitId.index ↔ i ∈ g.ids.map UnitId.index := by
    intro i
    simp only [List.mem_map, mem_ids, h.contains]
  have hmap : g'.ids.map UnitId.index = g.ids.map UnitId.index :=
    ((List.perm_ext_iff_of_nodup ((hsorted g').imp Nat.ne_of_lt)
      ((hsorted g).imp Nat.ne_of_lt)).2 hmem).eq_of_pairwise (fun _ _ _ _ h h' => by omega)
        (hsorted g') (hsorted g)
  exact (List.map_injective_iff.2 fun x y hxy => by cases x; cases y; simp_all) hmap

theorem children (x : UnitId) : g'.children x = g.children x := by
  simp only [Graph.children, h.ids, h.owner?]

theorem portUnit? (x : UnitId) (side : Side) (index : Nat) :
    g'.portUnit? x side index = g.portUnit? x side index := by
  have hport : ∀ c, (g'.node? c).any (·.port == some (side, index)) =
      (g.node? c).any (·.port == some (side, index)) := fun c =>
    h.view (Option.any (·.port == some (side, index))) (fun n n' hn => by simp [hn.port]) c
  simp only [Graph.portUnit?, h.children, hport]

theorem fanOut (x : UnitId) (outlet : Nat) : g'.fanOut x outlet = g.fanOut x outlet := by
  rw [Graph.fanOut, Graph.fanOut, h.outgoing]

theorem ownerFanOut {n n' : Node U} (hn : n.PlannedAlike n') :
    g'.ownerFanOut n' = g.ownerFanOut n := by
  simp only [Graph.ownerFanOut, hn.owner, hn.port, h.ports, h.fanOut]

theorem isRoot (x : UnitId) : g'.isRoot x = g.isRoot x := by
  have hall : g'.allOutgoing x = g.allOutgoing x := by
    simp only [Graph.allOutgoing, h.ports]
    exact List.flatMap_congr fun o _ => h.outgoing x o
  rw [Graph.isRoot, Graph.isRoot, hall]
  exact h.view (Option.any fun n => (g.allOutgoing x).isEmpty || n.body.isSink)
    (fun n n' hn => by simp [hn.isSink]) x

theorem orderingParents (hg : g.Registered) (hg' : g'.Registered) (x : UnitId) :
    g'.orderingParents x = g.orderingParents x := by
  rw [orderingParents_eq hg', orderingParents_eq hg, namedBefore, namedBefore, h.registration?,
    h.ports]
  simp only [h.messages, h.seated]

theorem streams_iff {x y : UnitId} : g'.Streams x y ↔ g.Streams x y := by
  have hport : ∀ g : Graph U, g.Streams x y ↔ ∃ i, ∃ c ∈ g.streamSources y i, c.source = x := by
    intro g
    constructor
    · rintro ⟨c, hc, hk, hs, hd⟩
      exact ⟨c.inlet, c, mem_streamSources.2 ⟨hc, hk, hd, rfl⟩, hs⟩
    · rintro ⟨i, c, hc, hs⟩
      obtain ⟨hc, hk, hd, -⟩ := mem_streamSources.1 hc
      exact ⟨c, hc, hk, hs, hd⟩
  rw [hport, hport]
  simp only [h.streams]

end Views

end SameTopology
end Graph
end Patchbay
