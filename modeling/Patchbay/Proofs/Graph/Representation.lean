import Patchbay.Proofs.Graph.Fronts

/-!
# How a graph is represented

What a graph lists about itself agrees (`Represents`): both ends list a connection, under the kind
that its outlet has now; subgraphs list what they hold; and each port of a subgraph has its unit.
-/

namespace Patchbay

open Relation

variable {U : Type}

namespace Graph

/-- The connections of a kind at an inlet. -/
def incoming (g : Graph U) : ConnectionKind → UnitId → Nat → List Connection
  | .stream => g.streamSources
  | .message => g.messageSources

/-- The kind of the outlet that a connection leaves, if there is such an outlet. -/
def leaves? (g : Graph U) (c : Connection) : Option ConnectionKind :=
  (g.ports c.source).outletKind c.outlet

/-- That all that a graph lists agrees. -/
structure Represents (g : Graph U) : Prop where
  /-- A connection is listed where it leaves if, and only if, it is listed where it arrives, under the
  kind that the outlet has now. -/
  listed : ∀ c, c ∈ g.outgoing c.source c.outlet ↔
    ∃ kind, g.leaves? c = some kind ∧ c ∈ g.incoming kind c.dest c.inlet
  /-- Nothing is listed twice, or anywhere else. -/
  outgoing : ∀ x o, (g.outgoing x o).Nodup ∧ ∀ c ∈ g.outgoing x o, c.source = x ∧ c.outlet = o
  incoming : ∀ kind x i, (g.incoming kind x i).Nodup ∧
    ∀ c ∈ g.incoming kind x i, c.dest = x ∧ c.inlet = i ∧ g.leaves? c = some kind
  all : g.allConnections.Nodup ∧ ∀ c, c ∈ g.allConnections ↔ c ∈ g.outgoing c.source c.outlet
  ends : ∀ c ∈ g.allConnections, g.contains c.source = true ∧ g.contains c.dest = true ∧
    g.owner? c.source = g.owner? c.dest
  fits : ∀ c ∈ g.allConnections, c.outlet < (g.ports c.source).outlets ∧
    c.inlet < (g.ports c.dest).inlets ∧
    (g.leaves? c = some .stream → (g.ports c.dest).acceptsStream c.inlet = true)
  counts : ∀ x i, i < (g.ports x).inlets → (g.streamCounts x)[i]? =
    some (g.allConnections.countP fun c => c.dest = x ∧ c.inlet = i ∧ g.leaves? c = some .stream)
  acyclic : ∀ x, ¬ TransGen g.Streams x x
  children : ∀ x, (g.children x).Nodup ∧ ∀ c, c ∈ g.children x ↔ g.owner? c = some x
  holder : ∀ x o, g.owner? x = some o → g.isSubgraph o = true
  forest : ∀ x, ¬ TransGen (fun x o => g.owner? x = some o) x x
  /-- The port of a subgraph in a place is that of the unit that is in this place among those that
  stand for the side. -/
  front : ∀ x side, g.isSubgraph x = true →
    (g.front x side).length = Edit.nextPort (g.ports x) side ∧
    ∀ k c, (g.front x side)[k]? = some c ↔ g.owner? c = some x ∧ g.port? c = some (side, k)
  inlets : ∀ x k c, g.isSubgraph x = true → (g.front x .inlet)[k]? = some c →
    k < (g.ports x).messageInlets ∧
    ((g.ports x).acceptsStream k = true ↔ 0 < (g.ports c).streamOutlets)
  outlets : ∀ x k c, g.isSubgraph x = true → (g.front x .outlet)[k]? = some c →
    (g.ports x).outletKind k = some (if 0 < (g.ports c).streamInlets then .stream else .message)
  /-- What carries streams comes first on each side. -/
  streamsFirst : ∀ x, g.isSubgraph x = true →
    (g.front x .inlet).Pairwise (fun c d =>
      0 < (g.ports d).streamOutlets → 0 < (g.ports c).streamOutlets) ∧
    (g.front x .outlet).Pairwise fun c d =>
      0 < (g.ports d).streamInlets → 0 < (g.ports c).streamInlets
  size : g.size = (g.nodes.toList.filter Option.isSome).length

variable {g : Graph U}

theorem kindOf_eq (c : Connection) : g.kindOf c = (g.leaves? c).getD .message := rfl

/-- The outlet of a connection has a kind, for there is such an outlet. -/
theorem leaves?_eq (hg : g.Wired) {c : Connection} (hc : c ∈ g.connections) :
    g.leaves? c = some (g.kindOf c) := by
  have hout := hg.outlet c hc
  rw [kindOf_eq, leaves?, Ports.outletKind, if_pos hout]
  split <;> rfl

theorem incoming_eq_filter (g : Graph U) (kind : ConnectionKind) (x : UnitId) (i : Nat) :
    g.incoming kind x i =
      g.connections.filter fun c => c.dest == x && c.inlet == i && g.kindOf c == kind := by
  cases kind <;> rfl

theorem mem_incoming {kind : ConnectionKind} {c : Connection} {x : UnitId} {i : Nat} :
    c ∈ g.incoming kind x i ↔ c ∈ g.connections ∧ g.kindOf c = kind ∧ c.dest = x ∧ c.inlet = i := by
  cases kind with
  | stream => exact mem_streamSources
  | message => exact mem_messageSources

/-- Every connection is found by going through the nodes and their outlets. -/
theorem mem_allConnections (hg : g.Wired) {c : Connection} :
    c ∈ g.allConnections ↔ c ∈ g.connections := by
  simp only [allConnections, allOutgoing, List.mem_flatMap, mem_ids, List.mem_range, mem_outgoing]
  constructor
  · rintro ⟨x, -, o, -, hc, -⟩
    exact hc
  · intro hc
    exact ⟨c.source, hg.source c hc, c.outlet, hg.outlet c hc, hc, rfl, rfl⟩

theorem nodup_allConnections (hg : g.Wired) : g.allConnections.Nodup := by
  have hout : ∀ x o, (g.outgoing x o).Nodup := fun x o => hg.once.filter _
  unfold allConnections allOutgoing
  refine List.nodup_flatMap.2 ⟨fun x _ => List.nodup_flatMap.2 ⟨fun o _ => hout x o, ?_⟩, ?_⟩
  · refine List.nodup_range.imp fun hne c hc hc' => hne ?_
    exact (mem_outgoing.1 hc).2.2.symm.trans (mem_outgoing.1 hc').2.2
  · refine g.nodup_ids.imp fun hne c hc hc' => hne ?_
    obtain ⟨o, -, hc⟩ := List.mem_flatMap.1 hc
    obtain ⟨o', -, hc'⟩ := List.mem_flatMap.1 hc'
    exact (mem_outgoing.1 hc).2.1.symm.trans (mem_outgoing.1 hc').2.1

/-- The nodes that have a number are those that are in their places. -/
theorem size_eq (g : Graph U) : g.size = (g.nodes.toList.filter Option.isSome).length := by
  have hplaces : g.nodes.toList = (List.range g.nodes.size).map fun i => g.node? ⟨i⟩ := by
    refine List.ext_getElem (by simp) fun i h₁ h₂ => ?_
    have hi : i < g.nodes.size := by simpa using h₁
    simp [node?, hi]
  rw [size, ids, hplaces, List.filter_map, List.filter_map, List.length_map, List.length_map]
  rfl

theorem not_transGen_owner (hn : g.Nested) (x : UnitId) :
    ¬ TransGen (fun x o => g.owner? x = some o) x x := by
  have hlt : ∀ {x y}, TransGen (fun x o => g.owner? x = some o) x y → y.index < x.index := by
    intro x y h
    induction h with
    | single h => exact hn.older h
    | tail _ h ih => exact (hn.older h).trans ih
  exact fun h => lt_irrefl _ (hlt h)

theorem represents_of_sound (hg : g.Sound) (hf : g.Fronted) : g.Represents where
  listed c := by
    rw [mem_outgoing]
    constructor
    · intro hc
      exact ⟨_, leaves?_eq hg.wired hc.1, mem_incoming.2 ⟨hc.1, rfl, rfl, rfl⟩⟩
    · rintro ⟨kind, -, hc⟩
      exact ⟨(mem_incoming.1 hc).1, rfl, rfl⟩
  outgoing x o := ⟨hg.wired.once.filter _, fun c hc => (mem_outgoing.1 hc).2⟩
  incoming kind x i := by
    constructor
    · cases kind <;> exact hg.wired.once.filter _
    · intro c hc
      obtain ⟨hmem, rfl, hends⟩ := mem_incoming.1 hc
      exact ⟨hends.1, hends.2, leaves?_eq hg.wired hmem⟩
  all := by
    refine ⟨nodup_allConnections hg.wired, fun c => ?_⟩
    rw [mem_allConnections hg.wired, mem_outgoing]
    exact ⟨fun hc => ⟨hc, rfl, rfl⟩, fun hc => hc.1⟩
  ends c hc := by
    have hc := (mem_allConnections hg.wired).1 hc
    exact ⟨hg.wired.source c hc, hg.wired.dest c hc, hg.wired.level c hc⟩
  fits c hc := by
    have hc := (mem_allConnections hg.wired).1 hc
    refine ⟨hg.wired.outlet c hc, hg.wired.inlet c hc, fun hk => ?_⟩
    rw [leaves?_eq hg.wired hc, Option.some.injEq] at hk
    exact decide_eq_true (hg.wired.streamInlet c hc hk)
  counts x i hi := by
    have hperm : g.allConnections.Perm g.connections :=
      (List.perm_ext_iff_of_nodup (nodup_allConnections hg.wired) hg.wired.once).2
        fun c => mem_allConnections hg.wired
    rw [streamCounts, List.getElem?_map, List.getElem?_range hi, Option.map_some, hperm.countP_eq,
      streamSources, ← List.countP_eq_length_filter]
    refine congrArg some (List.countP_congr fun c hc => ?_)
    rw [leaves?_eq hg.wired hc]
    simp [and_assoc]
  acyclic := hg.wired.acyclic
  children x := ⟨g.nodup_children x, fun c => hg.nested.mem_children⟩
  holder x o ho := hg.nested.holder ho
  forest := not_transGen_owner hg.nested
  front x side hx := front_eq hf hg.nested hx side
  inlets x k c hx hk := by
    obtain ⟨ho, hp⟩ := ((front_eq hf hg.nested hx .inlet).2 k c).1 hk
    have hlt := hg.nested.portIndex ho hp
    have hle := hg.nested.inlets hx
    rw [Edit.nextPort, Ports.inlets, max_eq_left hle] at hlt
    exact ⟨hlt, hf.inlet ho hp⟩
  outlets x k c hx hk := by
    obtain ⟨ho, hp⟩ := ((front_eq hf hg.nested hx .outlet).2 k c).1 hk
    have hlt : k < (g.ports x).outlets := hg.nested.portIndex ho hp
    rw [Ports.outletKind]
    by_cases hs : k < (g.ports x).streamOutlets
    · rw [if_pos hs, if_pos ((hf.outlet ho hp).1 hs)]
    · rw [if_neg hs, if_pos hlt, if_neg fun h => hs ((hf.outlet ho hp).2 h)]
  streamsFirst x hx := by
    constructor
    · refine List.pairwise_iff_getElem.2 fun j k hj hk hjk hstream => ?_
      obtain ⟨ho, hp⟩ := ((front_eq hf hg.nested hx .inlet).2 j _).1 (List.getElem?_eq_getElem hj)
      obtain ⟨ho', hp'⟩ := ((front_eq hf hg.nested hx .inlet).2 k _).1 (List.getElem?_eq_getElem hk)
      have hkin := of_decide_eq_true ((hf.inlet ho' hp').2 hstream)
      exact (hf.inlet ho hp).1 (decide_eq_true (hjk.trans hkin))
    · refine List.pairwise_iff_getElem.2 fun j k hj hk hjk hstream => ?_
      obtain ⟨ho, hp⟩ := ((front_eq hf hg.nested hx .outlet).2 j _).1 (List.getElem?_eq_getElem hj)
      obtain ⟨ho', hp'⟩ := ((front_eq hf hg.nested hx .outlet).2 k _).1 (List.getElem?_eq_getElem hk)
      exact (hf.outlet ho hp).1 (hjk.trans ((hf.outlet ho' hp').2 hstream))
  size := g.size_eq

end Graph
end Patchbay
