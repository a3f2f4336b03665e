import Patchbay.Proofs.Graph.Growing
import Patchbay.Proofs.Graph.Search

/-!
# Making and removing connections

A stream connection is made only if no streams lead back from its destination to its source, which a
search decides (`streamsReach_iff`), so streams never run in a loop. Removing connections cannot
break any rule.
-/

namespace Patchbay

open Relation

variable {U : Type}

/-- One more edge closes a loop only if there was a way back along it. -/
theorem transGen_insert {α : Type} {r : α → α → Prop} {a b x y : α}
    (h : TransGen (fun x y => r x y ∨ x = a ∧ y = b) x y) :
    TransGen r x y ∨ ReflTransGen r x a ∧ ReflTransGen r b y := by
  induction h with
  | single h =>
    rcases h with h | ⟨rfl, rfl⟩
    · exact .inl (.single h)
    · exact .inr ⟨.refl, .refl⟩
  | tail _ h ih =>
    rcases h with h | ⟨rfl, rfl⟩
    · rcases ih with ih | ⟨ih₁, ih₂⟩
      · exact .inl (ih.tail h)
      · exact .inr ⟨ih₁, ih₂.tail h⟩
    · rcases ih with ih | ⟨ih₁, -⟩
      · exact .inr ⟨ih.to_reflTransGen, .refl⟩
      · exact .inr ⟨ih₁, .refl⟩

namespace Graph

/-- Graphs of one shape with the same seats in their registries are sound together. -/
theorem Sound.of_sameShape {g g' : Graph U} (hg : g.Sound) (h : g.SameShape g')
    (hnames : g.names.SameSeats g'.names) : g'.Sound :=
  ⟨h.wired hg.wired, h.nested hg.nested, h.registered hnames hg.registered⟩

/-- A graph whose connections are among those of another is as well wired. -/
theorem Wired.of_sublist {g g' : Graph U} (hg : g.Wired) (hnodes : g'.nodes = g.nodes)
    (hc : g'.connections.Sublist g.connections) : g'.Wired := by
  have hnode : ∀ x, g'.node? x = g.node? x := fun x => by simp [node?_eq, hnodes]
  have hports : ∀ x, g'.ports x = g.ports x := fun x => by simp [ports, hnode]
  have hkind : ∀ c, g'.kindOf c = g.kindOf c := fun c => by simp [kindOf, hports]
  have hstreams : ∀ x y, g'.Streams x y → g.Streams x y := by
    rintro x y ⟨c, hmem, hk, hxy⟩
    exact ⟨c, hc.subset hmem, hkind c ▸ hk, hxy⟩
  constructor
  · exact fun c hmem => by simpa [contains, hnode] using hg.source c (hc.subset hmem)
  · exact fun c hmem => by simpa [contains, hnode] using hg.dest c (hc.subset hmem)
  · exact fun c hmem => by simpa [owner?, hnode] using hg.level c (hc.subset hmem)
  · exact fun c hmem => by simpa [hports] using hg.outlet c (hc.subset hmem)
  · exact fun c hmem => by simpa [hports] using hg.inlet c (hc.subset hmem)
  · exact fun c hmem hk => by
      simpa [hports] using hg.streamInlet c (hc.subset hmem) (hkind c ▸ hk)
  · exact hc.nodup hg.once
  · exact fun x hx => hg.acyclic x (TransGen.mono hstreams _ _ hx)

/-- The nesting and the registry are about nodes alone. -/
theorem Nested.of_nodes {g g' : Graph U} (hg : g.Nested) (hnodes : g'.nodes = g.nodes) :
    g'.Nested := by
  have hnode : ∀ x, g'.node? x = g.node? x := fun x => by simp [node?_eq, hnodes]
  constructor <;> simp only [owner?, port?, isSubgraph, ports, hnode]
  · exact hg.older
  · exact hg.holder
  · exact hg.portOwned
  · exact hg.portUnit
  · exact hg.portIndex
  · exact hg.portOnce
  · exact hg.inlets

theorem Registered.of_nodes {g g' : Graph U} (hg : g.Registered) (hnodes : g'.nodes = g.nodes)
    (hnames : g'.names = g.names) : g'.Registered := by
  have hnode : ∀ x, g'.node? x = g.node? x := fun x => by simp [node?_eq, hnodes]
  constructor <;> simp only [registration?, handle?, isSubgraph, hnode, hnames]
  · exact hg.names
  · exact hg.seated
  · exact hg.handle
  · exact hg.unit

end Graph

namespace Edit

/-- The search along streams finds what a stream leads to. -/
theorem streamsReach_iff {g : Graph U} (hg : g.Wired) {start goal : UnitId}
    (hstart : g.contains start = true) :
    streamsReach g start goal = true ↔ ReflTransGen g.Streams start goal := by
  simp only [streamsReach, search_iff, List.mem_singleton, exists_eq_left]
  constructor
  · intro h
    generalize hx : start.index = x at h
    induction h generalizing start with
    | here _ hlook =>
      have : start = goal := by
        split at hlook
        · cases start; cases goal; simp_all
        · cases hlook
      exact this ▸ .refl
    | next _ hlook hy _ ih =>
      split at hlook
      · cases hlook
      · cases hlook
        obtain ⟨c, hc, rfl⟩ := List.mem_map.1 hy
        simp only [List.mem_filter, Bool.and_eq_true, beq_iff_eq] at hc
        obtain ⟨hc, hsource, hkind⟩ := hc
        have hs : c.source = start := by
          cases hcs : c.source; cases start; simp_all
        exact .head ⟨c, hc, hkind, hs, rfl⟩ (ih (hg.dest c hc) rfl)
  · intro h
    induction h using ReflTransGen.head_induction_on with
    | refl => exact .here (Graph.lt_size_of_contains hstart) (by simp)
    | head hxy _ ih =>
      obtain ⟨c, hc, hkind, rfl, rfl⟩ := hxy
      have hlt := Graph.lt_size_of_contains hstart
      by_cases hx : c.source.index = goal.index
      · exact .here hlt (by simp [hx])
      · refine .next hlt (if_neg hx) ?_ (ih (hg.dest c hc))
        exact List.mem_map.2 ⟨c, by simp [hc, hkind], rfl⟩

/-- What is checked before a connection is made. -/
theorem validate_eq_ok {c : Connection} {kind : ConnectionKind} {g g' : Graph U}
    (h : validate c g = .ok kind g') :
    g = g' ∧ g.contains c.source = true ∧ g.contains c.dest = true ∧
    g.owner? c.source = g.owner? c.dest ∧ (g.ports c.source).outletKind c.outlet = some kind ∧
    c.inlet < (g.ports c.dest).inlets ∧
    (kind = .stream → c.inlet < (g.ports c.dest).streamInlets) := by
  unfold validate at h
  obtain ⟨source, _, hnode, h⟩ := run_bind_eq_ok.1 h
  obtain ⟨hsource, rfl⟩ := node_eq_ok.1 hnode
  obtain ⟨dest, _, hnode, h⟩ := run_bind_eq_ok.1 h
  obtain ⟨hdest, rfl⟩ := node_eq_ok.1 hnode
  by_cases howner : source.owner = dest.owner
  · simp only [howner, ne_eq, not_true, if_false] at h
    cases hkind : source.ports.outletKind c.outlet with
    | none =>
      simp only [hkind] at h
      cases h
    | some k =>
      simp only [hkind] at h
      by_cases hin : dest.ports.inlets ≤ c.inlet
      · simp only [hin, if_true] at h
        cases h
      · simp only [hin, if_false] at h
        by_cases hs : k = .stream ∧ !dest.ports.acceptsStream c.inlet
        · simp only [hs] at h
          cases h
        · simp only [hs, if_false] at h
          cases h
          refine ⟨rfl, Graph.contains_iff.2 ⟨_, hsource⟩, Graph.contains_iff.2 ⟨_, hdest⟩, ?_, ?_,
            ?_, ?_⟩
          · simp [Graph.owner?, hsource, hdest, howner]
          · simpa [Graph.ports, hsource] using hkind
          · simpa [Graph.ports, hdest] using hin
          · intro hk
            simpa [Graph.ports, hdest, hk, Ports.acceptsStream] using hs
  · simp only [howner, ne_eq, not_false_eq_true, if_true] at h
    cases h

/-- A connection that passes the checks keeps the wiring in order. -/
theorem wired_connect {g : Graph U} (hg : g.Wired) {c : Connection}
    (hsource : g.contains c.source = true) (hdest : g.contains c.dest = true)
    (howner : g.owner? c.source = g.owner? c.dest) (hout : c.outlet < (g.ports c.source).outlets)
    (hin : c.inlet < (g.ports c.dest).inlets)
    (hstream : g.kindOf c = .stream → c.inlet < (g.ports c.dest).streamInlets)
    (hnew : c ∉ g.connections) (hloop : g.kindOf c = .stream → ¬ streamsReach g c.dest c.source) :
    ({ g with connections := g.connections ++ [c], plan := none } : Graph U).Wired := by
  have hmem : ∀ {d}, d ∈ g.connections ++ [c] → d ∈ g.connections ∨ d = c := by simp
  constructor
  · intro d hd
    rcases hmem hd with hd | rfl
    · exact hg.source d hd
    · exact hsource
  · intro d hd
    rcases hmem hd with hd | rfl
    · exact hg.dest d hd
    · exact hdest
  · intro d hd
    rcases hmem hd with hd | rfl
    · exact hg.level d hd
    · exact howner
  · intro d hd
    rcases hmem hd with hd | rfl
    · exact hg.outlet d hd
    · exact hout
  · intro d hd
    rcases hmem hd with hd | rfl
    · exact hg.inlet d hd
    · exact hin
  · intro d hd hk
    rcases hmem hd with hd | rfl
    · exact hg.streamInlet d hd hk
    · exact hstream hk
  · rw [List.nodup_append]
    refine ⟨hg.once, by simp, ?_⟩
    rintro a ha b hb rfl
    exact hnew (List.mem_singleton.1 hb ▸ ha)
  · intro x hx
    by_cases hk : g.kindOf c = .stream
    · -- the new edge closes no loop, since nothing leads back along it
      have hback := mt (streamsReach_iff hg hdest).2 (hloop hk)
      have hedge : ∀ x y, Graph.Streams { g with connections := g.connections ++ [c], plan := none }
          x y → g.Streams x y ∨ x = c.source ∧ y = c.dest := by
        rintro x y ⟨d, hd, hkd, rfl, rfl⟩
        rcases hmem hd with hd | rfl
        · exact .inl ⟨d, hd, hkd, rfl, rfl⟩
        · exact .inr ⟨rfl, rfl⟩
      rcases transGen_insert (TransGen.mono hedge _ _ hx) with hx | ⟨h₁, h₂⟩
      · exact hg.acyclic x hx
      · exact hback (h₂.trans h₁)
    · have hedge : ∀ x y, Graph.Streams { g with connections := g.connections ++ [c], plan := none }
          x y → g.Streams x y := by
        rintro x y ⟨d, hd, hkd, hxy⟩
        rcases hmem hd with hd | rfl
        · exact ⟨d, hd, hkd, hxy⟩
        · exact absurd hkd hk
      exact hg.acyclic x (TransGen.mono hedge _ _ hx)

variable [Device U]

theorem sound_tell {g : Graph U} (hg : g.Sound) (x : UnitId) (inlet : Nat) :
    (tell g x inlet).Sound :=
  hg.of_sameShape (sameShape_tell g x inlet) (.refl _)

/-- Making a connection: it is appended, and its destination is told if it is one of streams. -/
theorem connect_eq_ok {c : Connection} {kind : ConnectionKind} {g g' : Graph U}
    (h : connect c g = .ok kind g') :
    validate c g = .ok kind g ∧ c ∉ g.connections ∧
      ¬ (kind = .stream ∧ streamsReach g c.dest c.source = true) ∧
      g' = if kind = .stream then
          tell { g with connections := g.connections ++ [c], plan := none } c.dest c.inlet
        else { g with connections := g.connections ++ [c], plan := none } := by
  unfold connect at h
  obtain ⟨k, _, hval, h⟩ := run_bind_eq_ok.1 h
  obtain ⟨rfl, -⟩ := validate_eq_ok hval
  rw [run_get_bind] at h
  obtain ⟨_, _, hnode, h⟩ := run_bind_eq_ok.1 h
  obtain ⟨-, rfl⟩ := node_eq_ok.1 hnode
  by_cases hnew : c ∈ g.connections
  · simp only [hnew, if_true] at h
    cases h
  · simp only [hnew, if_false] at h
    by_cases hloop : k = .stream ∧ streamsReach g c.dest c.source
    · simp only [hloop, and_self, if_true] at h
      cases h
    · simp only [hloop, if_false] at h
      rw [run_modify_bind] at h
      obtain ⟨_, _, hnode, h⟩ := run_bind_eq_ok.1 h
      obtain ⟨-, rfl⟩ := node_eq_ok.1 hnode
      by_cases hk : k = .stream
      · simp only [hk, if_true] at h
        cases h
        exact ⟨hk ▸ hval, hnew, hk ▸ hloop, rfl⟩
      · simp only [hk, if_false] at h
        cases h
        exact ⟨hval, hnew, hloop, (if_neg hk).symm⟩

theorem disconnect_eq_ok {c : Connection} {g g' : Graph U} (h : disconnect c g = .ok ⟨⟩ g') :
    c ∈ g.connections ∧ g' = drop g c := by
  unfold disconnect at h
  obtain ⟨_, _, hnode, h⟩ := run_bind_eq_ok.1 h
  obtain ⟨-, rfl⟩ := node_eq_ok.1 hnode
  obtain ⟨_, _, hnode, h⟩ := run_bind_eq_ok.1 h
  obtain ⟨-, rfl⟩ := node_eq_ok.1 hnode
  rw [run_get_bind] at h
  by_cases hmem : c ∉ g.connections
  · simp only [hmem] at h
    cases h
  · simp only [hmem] at h
    cases h
    exact ⟨not_not.1 hmem, rfl⟩

/-- Making a connection keeps a graph sound. -/
theorem sound_connect {g g' : Graph U} {c : Connection} {kind : ConnectionKind} (hg : g.Sound)
    (h : connect c g = .ok kind g') : g'.Sound := by
  obtain ⟨hval, hnew, hloop, rfl⟩ := connect_eq_ok h
  obtain ⟨-, hsource, hdest, howner, hkind, hin, hstream⟩ := validate_eq_ok hval
  have hk : g.kindOf c = kind := by simp [Graph.kindOf, hkind]
  have hout : c.outlet < (g.ports c.source).outlets := by
    simp only [Ports.outletKind] at hkind
    split at hkind
    · simp only [Ports.outlets]
      omega
    · split at hkind
      · assumption
      · cases hkind
  have hwired := wired_connect hg.wired hsource hdest howner hout hin (fun he => hstream (hk ▸ he))
    hnew (fun he hr => hloop ⟨hk ▸ he, hr⟩)
  have hsound : ({ g with connections := g.connections ++ [c], plan := none } : Graph U).Sound :=
    ⟨hwired, hg.nested.of_nodes rfl, hg.registered.of_nodes rfl rfl⟩
  split
  · exact sound_tell hsound _ _
  · exact hsound

/-- Removing a connection keeps a graph sound. -/
theorem sound_drop {g : Graph U} (hg : g.Sound) (c : Connection) : (drop g c).Sound := by
  have hsound : ({ g with connections := g.connections.erase c, plan := none } : Graph U).Sound :=
    ⟨hg.wired.of_sublist rfl List.erase_sublist, hg.nested.of_nodes rfl,
      hg.registered.of_nodes rfl rfl⟩
  unfold drop
  dsimp only
  split
  · exact sound_tell hsound _ _
  · exact hsound

theorem sound_disconnect {g g' : Graph U} {c : Connection} (hg : g.Sound)
    (h : disconnect c g = .ok () g') : g'.Sound := by
  obtain ⟨-, rfl⟩ := disconnect_eq_ok h
  exact sound_drop hg c

end Edit
end Patchbay
