import Patchbay.Proofs.Graph.Removing

/-!
# The ports of subgraphs

A subgraph has one port for each unit inside it that stands for a side, in the order in which these
were added, and what a port carries is what its unit passes through (`Fronted`). Ports are only ever
added behind the ones that are there, so those keep their places and their kinds (`Grows`).
-/

namespace Patchbay

open Relation

variable {U : Type}

/-! ## Growing ports -/

/-- That ports have only been added, behind the ones that were there. -/
structure Ports.Extends (p p' : Ports) : Prop where
  inlets : p.inlets ≤ p'.inlets
  outlets : p.outlets ≤ p'.outlets
  stream : ∀ i < p.inlets, p'.acceptsStream i = p.acceptsStream i
  message : ∀ i < p.inlets, i < p'.messageInlets ↔ i < p.messageInlets
  kind : ∀ o < p.outlets, p'.outletKind o = p.outletKind o

theorem Ports.Extends.refl (p : Ports) : p.Extends p :=
  ⟨le_rfl, le_rfl, fun _ _ => rfl, fun _ _ => .rfl, fun _ _ => rfl⟩

theorem Ports.Extends.trans {p p' p'' : Ports} (h : p.Extends p') (h' : p'.Extends p'') :
    p.Extends p'' where
  inlets := h.inlets.trans h'.inlets
  outlets := h.outlets.trans h'.outlets
  stream i hi := (h'.stream i (hi.trans_le h.inlets)).trans (h.stream i hi)
  message i hi := (h'.message i (hi.trans_le h.inlets)).trans (h.message i hi)
  kind o ho := (h'.kind o (ho.trans_le h.outlets)).trans (h.kind o ho)

/-- What growing by a port does to the ports that are there, and what the new port carries. -/
theorem Ports.grow?_kinds {p p' inner : Ports} {side : Side} (hle : p.streamInlets ≤ p.messageInlets)
    (h : p.grow? inner side = some p') :
    p.Extends p' ∧
    (side = .inlet → (p'.acceptsStream p.inlets = true ↔ 0 < inner.streamOutlets)) ∧
    (side = .outlet → (p.outlets < p'.streamOutlets ↔ 0 < inner.streamInlets)) ∧
    ∀ o < p.outlets, o < p'.streamOutlets ↔ o < p.streamOutlets := by
  obtain ⟨hin, hout, -, hkind, -⟩ := grow?_spec h
  cases side with
  | inlet =>
    simp only [grow?] at h
    split at h
    · split at h
      · cases h
      · next hinner hfull =>
        cases h
        refine ⟨⟨hin, hout, fun i hi => ?_, fun i hi => ?_, hkind⟩, fun _ => ?_, fun h => (by cases h),
          fun _ _ => .rfl⟩
        · simp only [inlets, acceptsStream] at hi ⊢
          rw [decide_eq_decide]
          omega
        · simp only [inlets] at hi ⊢
          omega
        · show decide (max p.messageInlets p.streamInlets < p.streamInlets + 1) = true ↔ _
          rw [decide_eq_true_iff]
          omega
    · next hinner =>
      cases h
      refine ⟨⟨hin, hout, fun _ _ => rfl, fun i hi => ?_, hkind⟩, fun _ => ?_, fun h => (by cases h),
        fun _ _ => .rfl⟩
      · simp only [inlets] at hi ⊢
        omega
      · show decide (max p.messageInlets p.streamInlets < p.streamInlets) = true ↔ _
        rw [decide_eq_true_iff]
        omega
  | outlet =>
    simp only [grow?] at h
    split at h
    · split at h
      · cases h
      · next hinner hfull =>
        cases h
        refine ⟨⟨hin, hout, fun _ _ => rfl, fun _ _ => .rfl, hkind⟩, fun h => (by cases h), fun _ => ?_,
          fun o ho => ?_⟩
        · simp only [outlets]
          omega
        · simp only [outlets] at ho ⊢
          omega
    · next hinner =>
      cases h
      refine ⟨⟨hin, hout, fun _ _ => rfl, fun _ _ => .rfl, hkind⟩, fun h => (by cases h), fun _ => ?_,
        fun _ _ => .rfl⟩
      simp only [outlets]
      omega

namespace Graph

/-! ## Subgraphs and the units behind their ports -/

/-- That the ports of each subgraph are those that the units inside it stand for. -/
structure Fronted (g : Graph U) : Prop where
  /-- Each port has a unit. -/
  complete : ∀ {x side k}, g.isSubgraph x = true → k < Edit.nextPort (g.ports x) side →
    ∃ c, g.owner? c = some x ∧ g.port? c = some (side, k)
  /-- Later ports have newer units. -/
  inOrder : ∀ {x c c' side k k'}, g.owner? c = some x → g.owner? c' = some x →
    g.port? c = some (side, k) → g.port? c' = some (side, k') → k < k' → c.index < c'.index
  inlet : ∀ {x c k}, g.owner? c = some x → g.port? c = some (.inlet, k) →
    ((g.ports x).acceptsStream k = true ↔ 0 < (g.ports c).streamOutlets)
  outlet : ∀ {x c k}, g.owner? c = some x → g.port? c = some (.outlet, k) →
    (k < (g.ports x).streamOutlets ↔ 0 < (g.ports c).streamInlets)

/-- That no node that is in both of two graphs has lost a port, or has been moved. -/
structure Grows (g g' : Graph U) : Prop where
  size : g.nodes.size ≤ g'.nodes.size
  /-- No number is used again. -/
  old : ∀ {x}, g'.contains x = true → x.index < g.nodes.size → g.contains x = true
  ports : ∀ {x}, g.contains x = true → g'.contains x = true → (g.ports x).Extends (g'.ports x)
  /-- Only subgraphs get more ports. -/
  fixed : ∀ {x}, g.contains x = true → g'.contains x = true → g.isSubgraph x = false →
    g'.ports x = g.ports x
  port? : ∀ {x}, g.contains x = true → g'.contains x = true → g'.port? x = g.port? x
  owner? : ∀ {x}, g.contains x = true → g'.contains x = true → g'.owner? x = g.owner? x
  isSubgraph : ∀ {x}, g.contains x = true → g'.contains x = true → g'.isSubgraph x = g.isSubgraph x

theorem fronted_empty (blockSize : Nat) : (empty blockSize : Graph U).Fronted where
  complete h := by simp [isSubgraph, node?_empty] at h
  inOrder h := by simp [Graph.owner?, node?_empty] at h
  inlet h := by simp [Graph.owner?, node?_empty] at h
  outlet h := by simp [Graph.owner?, node?_empty] at h

/-- Graphs with nodes of the same shapes are fronted together. -/
theorem Fronted.of_shape {g g' : Graph U} (hg : g.Fronted) (h : ∀ x, g'.shape? x = g.shape? x) :
    g'.Fronted := by
  have howner : ∀ x, g'.owner? x = g.owner? x := fun x => by simp [owner?_eq_shape, h]
  have hport : ∀ x, g'.port? x = g.port? x := fun x => by simp [port?_eq_shape, h]
  have hports : ∀ x, g'.ports x = g.ports x := fun x => by simp [ports_eq_shape, h]
  have hsub : ∀ x, g'.isSubgraph x = g.isSubgraph x := fun x => by simp [isSubgraph_eq_shape, h]
  constructor <;> simp only [howner, hport, hports, hsub]
  · exact hg.complete
  · exact hg.inOrder
  · exact hg.inlet
  · exact hg.outlet

/-- Graphs in which the nodes that are left have the shapes that they had. -/
theorem Grows.of_shape {g g' : Graph U} (hsize : g'.nodes.size = g.nodes.size)
    (h : ∀ x, g'.contains x = true → g'.shape? x = g.shape? x) : g.Grows g' where
  size := hsize.ge
  old {x} hx _ := by
    have hcopy := hx
    rwa [contains_eq_shape, h x hx, ← contains_eq_shape] at hcopy
  ports {x} _ hx := by
    rw [ports_eq_shape, ports_eq_shape, h x hx]
    exact .refl _
  fixed {x} _ hx _ := by rw [ports_eq_shape, ports_eq_shape, h x hx]
  port? {x} _ hx := by rw [port?_eq_shape, port?_eq_shape, h x hx]
  owner? {x} _ hx := by rw [owner?_eq_shape, owner?_eq_shape, h x hx]
  isSubgraph {x} _ hx := by rw [isSubgraph_eq_shape, isSubgraph_eq_shape, h x hx]

theorem Grows.refl (g : Graph U) : g.Grows g := .of_shape rfl fun _ _ => rfl

theorem Grows.trans {g g' g'' : Graph U} (h : g.Grows g') (h' : g'.Grows g'') : g.Grows g'' := by
  have hmid : ∀ {x}, g.contains x = true → g''.contains x = true → g'.contains x = true :=
    fun hx hx'' => h'.old hx'' ((lt_size_of_contains hx).trans_le h.size)
  constructor
  · exact h.size.trans h'.size
  · exact fun hx hlt => h.old (h'.old hx (hlt.trans_le h.size)) hlt
  · exact fun hx hx'' => (h.ports hx (hmid hx hx'')).trans (h'.ports (hmid hx hx'') hx'')
  · intro x hx hx'' hunit
    have hx' := hmid hx hx''
    rw [h'.fixed hx' hx'' ((h.isSubgraph hx hx').trans hunit), h.fixed hx hx' hunit]
  · exact fun hx hx'' => (h'.port? (hmid hx hx'') hx'').trans (h.port? hx (hmid hx hx''))
  · exact fun hx hx'' => (h'.owner? (hmid hx hx'') hx'').trans (h.owner? hx (hmid hx hx''))
  · exact fun hx hx'' =>
      (h'.isSubgraph (hmid hx hx'') hx'').trans (h.isSubgraph hx (hmid hx hx''))

/-! ## Adding nodes -/

namespace Added

variable {g g' : Graph U} {id : UnitId} {n : Node U} (h : Added g g' id n)
include h

theorem grows (hsize : g.nodes.size ≤ g'.nodes.size) : g.Grows g' := by
  have hne : ∀ {x}, g.contains x = true → x ≠ id := fun hx => h.ne_of_contains hx
  constructor
  · exact hsize
  · intro x hx hlt
    have hxid : x ≠ id := by
      rintro rfl
      have := h.fresh
      omega
    rwa [h.contains, if_neg hxid] at hx
  · intro x hx _
    rw [h.ports, if_neg (hne hx)]
    exact .refl _
  · exact fun {x} hx _ _ => by rw [h.ports, if_neg (hne hx)]
  · exact fun {x} hx _ => by rw [h.port?, if_neg (hne hx)]
  · exact fun {x} hx _ => by rw [h.owner?, if_neg (hne hx)]
  · exact fun {x} hx _ => by rw [h.isSubgraph, if_neg (hne hx)]

theorem fronted (hg : g.Fronted) (hn : g.Nested) (hport : n.port = none)
    (hports : n.isSubgraph = true → n.ports = {}) : g'.Fronted := by
  have hne : ∀ {x}, g.contains x = true → x ≠ id := fun hx => h.ne_of_contains hx
  have hold : ∀ {c p}, g'.port? c = some p → c ≠ id ∧ g.port? c = some p := by
    intro c p hp
    rw [h.port?] at hp
    split at hp
    · rw [hport] at hp
      cases hp
    · next hc => exact ⟨hc, hp⟩
  have howner : ∀ {c x}, c ≠ id → g'.owner? c = some x → g.owner? c = some x := by
    intro c x hc ho
    rwa [h.owner?, if_neg hc] at ho
  have hholder : ∀ {c x}, g.owner? c = some x → g'.ports x = g.ports x := by
    intro c x ho
    rw [h.ports, if_neg (hne (contains_of_isSubgraph (hn.holder ho)))]
  constructor
  · intro x side k hx hk
    rw [h.isSubgraph] at hx
    rw [h.ports] at hk
    split at hx
    · next he =>
      rw [if_pos he, hports hx] at hk
      cases side <;> simp [Edit.nextPort, Ports.inlets, Ports.outlets] at hk
    · next he =>
      rw [if_neg he] at hk
      obtain ⟨c, ho, hp⟩ := hg.complete hx hk
      have hc := hne (contains_of_owner? ho)
      exact ⟨c, by rw [h.owner?, if_neg hc, ho], by rw [h.port?, if_neg hc, hp]⟩
  · intro x c c' side k k' ho ho' hp hp' hlt
    obtain ⟨hc, hp⟩ := hold hp
    obtain ⟨hc', hp'⟩ := hold hp'
    exact hg.inOrder (howner hc ho) (howner hc' ho') hp hp' hlt
  · intro x c k ho hp
    obtain ⟨hc, hp⟩ := hold hp
    rw [hholder (howner hc ho), h.ports, if_neg hc]
    exact hg.inlet (howner hc ho) hp
  · intro x c k ho hp
    obtain ⟨hc, hp⟩ := hold hp
    rw [hholder (howner hc ho), h.ports, if_neg hc]
    exact hg.outlet (howner hc ho) hp

end Added

/-! ## Becoming a port -/

section Stand

variable {g : Graph U} {id o : UnitId} {grown inner : Ports} {side : Side}

/-- Becoming the next port takes none away. -/
theorem grows_stand (hg : g.Nested) (ho : g.owner? id = some o)
    (hgrow : (g.ports o).grow? inner side = some grown) (port : Side × Nat) :
    ∀ x, x ≠ id → (g.ports x).Extends ((g.stand id o grown port).ports x) ∧
      (g.isSubgraph x = false → (g.stand id o grown port).ports x = g.ports x) ∧
      (g.stand id o grown port).port? x = g.port? x := by
  have hsub := hg.holder ho
  have hext := (Ports.grow?_kinds (hg.inlets hsub) hgrow).1
  intro x hx
  refine ⟨?_, fun hxu => ?_, ?_⟩
  · rw [ports_stand _ _ _ _ _ (contains_of_isSubgraph hsub)]
    split
    · next he => exact he ▸ hext
    · exact .refl _
  · rw [ports_stand _ _ _ _ _ (contains_of_isSubgraph hsub), if_neg]
    rintro rfl
    rw [hsub] at hxu
    cases hxu
  · rw [port?_stand _ _ _ _ _ (contains_of_owner? ho), if_neg hx]

theorem fronted_stand (hg : g.Fronted) (hn : g.Nested) (ho : g.owner? id = some o)
    (hunit : g.isSubgraph id = false) (hport : g.port? id = none)
    (hnewest : ∀ c, g.contains c = true → c ≠ id → c.index < id.index)
    (hgrow : (g.ports o).grow? (g.ports id) side = some grown) :
    (g.stand id o grown (side, Edit.nextPort (g.ports o) side)).Fronted := by
  have hsub := hn.holder ho
  have hoc := contains_of_isSubgraph hsub
  have hidc := contains_of_owner? ho
  have hio : id ≠ o := by
    rintro rfl
    rw [hsub] at hunit
    cases hunit
  obtain ⟨hext, hnewIn, hnewOut, hstreams⟩ := Ports.grow?_kinds (hn.inlets hsub) hgrow
  have hnext := ((Ports.grow?_spec hgrow).2.2.2.2 (hn.inlets hsub)).2
  generalize hg' : g.stand id o grown (side, Edit.nextPort (g.ports o) side) = g'
  have howner : ∀ x, g'.owner? x = g.owner? x := hg' ▸ g.owner?_stand id o grown _
  have hissub : ∀ x, g'.isSubgraph x = g.isSubgraph x := hg' ▸ g.isSubgraph_stand id o grown _
  have hports : ∀ x, g'.ports x = if x = o then grown else g.ports x :=
    hg' ▸ g.ports_stand id o grown _ hoc
  have hport' : ∀ x, g'.port? x =
      if x = id then some (side, Edit.nextPort (g.ports o) side) else g.port? x :=
    hg' ▸ g.port?_stand id o grown _ hidc
  have hinner : ∀ {c p}, g'.port? c = some p → g'.ports c = g.ports c := by
    intro c p hp
    rw [hports, if_neg]
    rintro rfl
    rw [hport', if_neg hio.symm] at hp
    exact Bool.false_ne_true ((hn.portUnit hp).symm.trans hsub)
  constructor
  · intro x s k hx hk
    rw [hissub] at hx
    rw [hports] at hk
    have hstays : ∀ c, g.owner? c = some x → g.port? c = some (s, k) →
        ∃ c, g'.owner? c = some x ∧ g'.port? c = some (s, k) := by
      intro c hc hp
      refine ⟨c, by rw [howner, hc], ?_⟩
      rw [hport', if_neg, hp]
      rintro rfl
      rw [hport] at hp
      cases hp
    split at hk
    · next he =>
      subst he
      rw [hnext] at hk
      by_cases hlt : k < Edit.nextPort (g.ports x) s
      · obtain ⟨c, hc, hp⟩ := hg.complete hx hlt
        exact hstays c hc hp
      · -- It is the new port.
        have hs : s = side := by
          by_contra hs
          rw [if_neg hs] at hk
          omega
        subst hs
        rw [if_pos rfl] at hk
        exact ⟨id, by rw [howner, ho], by rw [hport', if_pos rfl, Nat.le_antisymm (Nat.not_lt.1 hlt) (by omega)]⟩
    · obtain ⟨c, hc, hp⟩ := hg.complete hx hk
      exact hstays c hc hp
  · intro x c c' s k k' hc hc' hp hp' hlt
    rw [howner] at hc hc'
    rw [hport'] at hp hp'
    split at hp'
    · next he' =>
      cases hp'
      split at hp
      · cases hp
        omega
      · next he =>
        rw [he']
        exact hnewest c (contains_of_owner? hc) he
    · next he' =>
      split at hp
      · next he =>
        -- No port was there whose index is beyond that of the new one.
        cases hp
        rw [he, ho] at hc
        cases hc
        have := hn.portIndex hc' hp'
        omega
      · exact hg.inOrder hc hc' hp hp' hlt
  · intro x c k hc hp
    rw [hinner hp]
    rw [howner] at hc
    rw [hport'] at hp
    rw [hports]
    split at hp
    · next he =>
      cases hp
      rw [he, ho] at hc
      cases hc
      rw [if_pos rfl, he]
      exact hnewIn rfl
    · split
      · next he =>
        subst he
        rw [hext.stream k (hn.portIndex hc hp)]
        exact hg.inlet hc hp
      · exact hg.inlet hc hp
  · intro x c k hc hp
    rw [hinner hp]
    rw [howner] at hc
    rw [hport'] at hp
    rw [hports]
    split at hp
    · next he =>
      cases hp
      rw [he, ho] at hc
      cases hc
      rw [if_pos rfl, he]
      exact hnewOut rfl
    · split
      · next he =>
        subst he
        rw [hstreams k (hn.portIndex hc hp)]
        exact hg.outlet hc hp
      · exact hg.outlet hc hp

end Stand
/-! ## The units behind the ports -/

/-- The units inside a subgraph that stand for a side, oldest first. -/
def front (g : Graph U) (x : UnitId) (side : Side) : List UnitId :=
  (g.children x).filter fun c => (g.port? c).any (·.1 = side)

theorem pairwise_front (g : Graph U) (x : UnitId) (side : Side) :
    (g.front x side).Pairwise (·.index < ·.index) :=
  ((g.pairwise_ids.filter _).filter _)

theorem mem_front {g : Graph U} (hn : g.Nested) {x c : UnitId} {side : Side} :
    c ∈ g.front x side ↔ g.owner? c = some x ∧ ∃ k, g.port? c = some (side, k) := by
  rw [front, List.mem_filter, hn.mem_children]
  refine and_congr_right fun _ => ?_
  rw [Option.any_eq_true]
  constructor
  · rintro ⟨⟨s, k⟩, hp, hs⟩
    exact ⟨k, by rw [hp, ← of_decide_eq_true hs]⟩
  · rintro ⟨k, hp⟩
    exact ⟨_, hp, decide_eq_true rfl⟩

/-- The ports of a subgraph are those that the units inside it stand for, each in its place. -/
theorem front_eq {g : Graph U} (hf : g.Fronted) (hn : g.Nested) {x : UnitId} (hx : g.isSubgraph x = true)
    (side : Side) : (g.front x side).length = Edit.nextPort (g.ports x) side ∧
      ∀ k c, (g.front x side)[k]? = some c ↔ g.owner? c = some x ∧ g.port? c = some (side, k) := by
  have hunit : ∀ k < Edit.nextPort (g.ports x) side, ∃ c, g.portUnit? x side k = some c := by
    intro k hk
    obtain ⟨c, ho, hp⟩ := hf.complete hx hk
    exact ⟨c, hn.portUnit?_eq_some.2 ⟨ho, hp⟩⟩
  choose! unit hunits using hunit
  have hspec : ∀ k < Edit.nextPort (g.ports x) side,
      g.owner? (unit k) = some x ∧ g.port? (unit k) = some (side, k) :=
    fun k hk => hn.portUnit?_eq_some.1 (hunits k hk)
  have hsorted : ((List.range (Edit.nextPort (g.ports x) side)).map unit).Pairwise
      (·.index < ·.index) := by
    rw [List.pairwise_map]
    refine List.pairwise_lt_range.imp_of_mem fun hj hk hlt => ?_
    obtain ⟨hoj, hpj⟩ := hspec _ (List.mem_range.1 hj)
    obtain ⟨hok, hpk⟩ := hspec _ (List.mem_range.1 hk)
    exact hf.inOrder hoj hok hpj hpk hlt
  have hirrefl : ∀ {l : List UnitId}, l.Pairwise (·.index < ·.index) → l.Nodup := fun h =>
    h.imp fun hlt he => by rw [he] at hlt; exact lt_irrefl _ hlt
  have hmem : ∀ c, c ∈ g.front x side ↔
      c ∈ (List.range (Edit.nextPort (g.ports x) side)).map unit := by
    intro c
    rw [mem_front hn, List.mem_map]
    constructor
    · rintro ⟨ho, k, hp⟩
      have hk := hn.portIndex ho hp
      obtain ⟨ho', hp'⟩ := hspec k hk
      exact ⟨k, List.mem_range.2 hk, hn.portOnce ho' ho hp' hp⟩
    · rintro ⟨k, hk, rfl⟩
      obtain ⟨ho, hp⟩ := hspec k (List.mem_range.1 hk)
      exact ⟨ho, k, hp⟩
  have heq : g.front x side = (List.range (Edit.nextPort (g.ports x) side)).map unit := by
    have hperm := (List.perm_ext_iff_of_nodup (hirrefl (g.pairwise_front x side))
      (hirrefl hsorted)).2 hmem
    refine hperm.eq_of_pairwise (fun a b _ _ hab hba => ?_) (g.pairwise_front x side) hsorted
    exact absurd (hab.trans hba) (lt_irrefl _)
  rw [heq]
  refine ⟨by simp, fun k c => ?_⟩
  rw [List.getElem?_map, Option.map_eq_some_iff]
  constructor
  · rintro ⟨j, hj, rfl⟩
    obtain ⟨hlt, rfl⟩ := List.getElem?_eq_some_iff.1 hj
    rw [List.getElem_range]
    exact hspec k (by simpa using hlt)
  · rintro ⟨ho, hp⟩
    have hk := hn.portIndex ho hp
    obtain ⟨ho', hp'⟩ := hspec k hk
    exact ⟨k, by rw [List.getElem?_range hk], hn.portOnce ho' ho hp' hp⟩

end Graph

namespace Edit

variable [Device U] {g g' : Graph U}

/-! ## What edits do to ports -/

theorem fronted_insert {owner : Option UnitId} {body : Body U} {id : UnitId} (hf : g.Fronted)
    (hg : g.Sound) (howner : ∀ o, owner = some o → g.isSubgraph o = true)
    (h : insert owner body g = .ok id g') : g'.Fronted ∧ g.Grows g' := by
  obtain ⟨-, n, hadded, hbody, hports, -, hport⟩ := sound_insert hg howner h
  have hsize : g.nodes.size ≤ g'.nodes.size := by
    obtain ⟨_, _, -, -, rfl⟩ := insert_eq_ok h
    simp
  refine ⟨hadded.fronted hf hg.nested hport fun hsub => ?_, hadded.grows hsize⟩
  cases body with
  | subgraph => exact hports
  | device u =>
    rw [Node.isSubgraph, hbody] at hsub
    cases hsub

theorem fronted_insertInto {owner id : UnitId} {body : Body U} (hf : g.Fronted) (hg : g.Sound)
    (h : insertInto owner body g = .ok id g') : g'.Fronted ∧ g.Grows g' := by
  obtain ⟨holder, g₁, hholder, hsub, hins, h⟩ := insertInto_eq_ok h
  have howner : ∀ o, some owner = some o → g.isSubgraph o = true := by
    rintro o ⟨⟩
    simp [Graph.isSubgraph, hholder, hsub]
  obtain ⟨hf₁, hgrows⟩ := fronted_insert hf hg howner hins
  obtain ⟨hg₁, n, hadded, hbody, hnports, hno, hnp⟩ := sound_insert hg howner hins
  rcases h with ⟨-, rfl⟩ | ⟨side, grown, hside, hgrow, rfl⟩
  · exact ⟨hf₁, hgrows⟩
  · have hne : owner ≠ id := hadded.ne_of_contains (Graph.contains_iff.2 ⟨holder, hholder⟩)
    have hports : g₁.ports owner = holder.ports := by
      rw [hadded.ports, if_neg hne]
      simp [Graph.ports, hholder]
    have hinner : g₁.ports id = body.ports := by rw [hadded.ports, if_pos rfl, hnports]
    have ho : g₁.owner? id = some owner := by rw [hadded.owner?, if_pos rfl, hno]
    have hunit : g₁.isSubgraph id = false := by
      rw [hadded.isSubgraph, if_pos rfl]
      cases body with
      | device u => simp [Node.isSubgraph, hbody]
      | subgraph => simp [Body.side] at hside
    have hport : g₁.port? id = none := by rw [hadded.port?, if_pos rfl, hnp]
    have hnewest : ∀ c, g₁.contains c = true → c ≠ id → c.index < id.index := by
      intro c hc hcid
      rw [hadded.contains, if_neg hcid] at hc
      rw [hadded.fresh]
      exact Graph.lt_size_of_contains hc
    rw [← hports] at hgrow ⊢
    rw [← hinner] at hgrow
    refine ⟨Graph.fronted_stand hf₁ hg₁.nested ho hunit hport hnewest hgrow, ?_⟩
    have hstand := Graph.grows_stand hg₁.nested ho hgrow (side, nextPort (g₁.ports owner) side)
    have hold : ∀ {x}, g.contains x = true → x ≠ id ∧ g₁.contains x = true := by
      intro x hx
      have hxid := hadded.ne_of_contains hx
      exact ⟨hxid, by rw [hadded.contains, if_neg hxid, hx]⟩
    constructor
    · simpa [Graph.stand] using hgrows.size
    · intro x hx hlt
      rw [Graph.contains_stand] at hx
      exact hgrows.old hx hlt
    · intro x hx _
      obtain ⟨hxid, hx₁⟩ := hold hx
      exact (hgrows.ports hx hx₁).trans (hstand x hxid).1
    · intro x hx _ hxu
      obtain ⟨hxid, hx₁⟩ := hold hx
      rw [(hstand x hxid).2.1 ((hgrows.isSubgraph hx hx₁).trans hxu), hgrows.fixed hx hx₁ hxu]
    · intro x hx _
      obtain ⟨hxid, hx₁⟩ := hold hx
      rw [(hstand x hxid).2.2, hgrows.port? hx hx₁]
    · intro x hx _
      rw [Graph.owner?_stand, hgrows.owner? hx (hold hx).2]
    · intro x hx _
      rw [Graph.isSubgraph_stand, hgrows.isSubgraph hx (hold hx).2]

theorem fronted_add {owner : Option UnitId} {body : Body U} {id : UnitId} (hf : g.Fronted)
    (hg : g.Sound) (h : add owner body g = .ok id g') : g'.Fronted ∧ g.Grows g' := by
  cases owner with
  | none => exact fronted_insert hf hg (fun _ h => by cases h) h
  | some owner => exact fronted_insertInto hf hg h

theorem fronted_connect {c : Connection} {kind : ConnectionKind} (hf : g.Fronted)
    (h : connect c g = .ok kind g') : g'.Fronted ∧ g.Grows g' := by
  obtain ⟨-, -, -, rfl⟩ := connect_eq_ok h
  split
  · have hshape := sameShape_tell { g with connections := g.connections ++ [c], plan := none } c.dest
      c.inlet
    exact ⟨hf.of_shape hshape.shape, .of_shape hshape.size fun x _ => hshape.shape x⟩
  · exact ⟨hf.of_shape fun _ => rfl, .of_shape rfl fun _ _ => rfl⟩

theorem fronted_disconnect {c : Connection} (hf : g.Fronted) (h : disconnect c g = .ok ⟨⟩ g') :
    g'.Fronted ∧ g.Grows g' := by
  obtain ⟨-, rfl⟩ := disconnect_eq_ok h
  have hdropped := dropped_drop g c
  exact ⟨hf.of_shape hdropped.shape, .of_shape hdropped.size fun x _ => hdropped.shape x⟩

/-- What stands for a port goes only together with the subgraph whose port it is. -/
theorem fronted_remove {id : UnitId} {body : Body U} (hf : g.Fronted) (hg : g.Sound)
    (h : remove id g = .ok body g') : g'.Fronted ∧ g.Grows g' := by
  obtain ⟨⟨n, hn, hfree, -⟩, rfl⟩ := remove_eq_ok h
  have hsound := sound_foldl_dropNode hg id
  have hshape := shape_foldl_dropNode (g.contentsFirst id) g
  generalize hg' : (g.contentsFirst id).foldl dropNode g = g' at hsound hshape
  have hsize : g'.nodes.size = g.nodes.size := hg' ▸ size_foldl_dropNode _ g
  have hleft : ∀ x, g'.contains x = true → x ∉ g.contentsFirst id ∧ g'.shape? x = g.shape? x := by
    intro x hx
    rw [Graph.contains_eq_shape, hshape] at hx
    split at hx
    · cases hx
    · next hmem => exact ⟨hmem, by rw [hshape, if_neg hmem]⟩
  -- A unit that stands for a port is left if its subgraph is.
  have hstays : ∀ {x c p}, x ∉ g.contentsFirst id → g.contains x = true → g.owner? c = some x →
      g.port? c = some p → g'.shape? c = g.shape? c := by
    intro x c p hx hxc ho hp
    rw [hshape, if_neg]
    intro hc
    rcases mem_contentsFirst_cases hc with rfl | ⟨o, ho', hmem⟩
    · rw [Graph.port?, hn] at hp
      rw [Graph.owner?, hn] at ho
      refine hfree ⟨by rw [show n.port = some p from hp]; rfl, ?_⟩
      rw [show n.owner = some x from ho]
      exact hxc
    · rw [ho] at ho'
      cases ho'
      exact hx hmem
  have hback : ∀ {x c}, g'.owner? c = some x → g'.shape? c = g.shape? c := fun ho =>
    (hleft _ (Graph.contains_of_owner? ho)).2
  have howner : ∀ {x c}, g'.owner? c = some x → g.owner? c = some x := by
    intro x c ho
    rw [Graph.owner?_eq_shape, ← hback ho, ← Graph.owner?_eq_shape, ho]
  have hport : ∀ {x c p}, g'.owner? c = some x → g'.port? c = some p → g.port? c = some p := by
    intro x c p ho hp
    rw [Graph.port?_eq_shape, ← hback ho, ← Graph.port?_eq_shape, hp]
  have hports : ∀ {x c}, g'.owner? c = some x → g'.ports x = g.ports x ∧ g'.ports c = g.ports c := by
    intro x c ho
    have hx := hleft x (Graph.contains_of_isSubgraph (hsound.nested.holder ho))
    exact ⟨by rw [Graph.ports_eq_shape, hx.2, ← Graph.ports_eq_shape],
      by rw [Graph.ports_eq_shape, hback ho, ← Graph.ports_eq_shape]⟩
  refine ⟨?_, .of_shape hsize fun x hx => (hleft x hx).2⟩
  constructor
  · intro x side k hx hk
    obtain ⟨hmem, hxs⟩ := hleft x (Graph.contains_of_isSubgraph hx)
    rw [Graph.isSubgraph_eq_shape, hxs, ← Graph.isSubgraph_eq_shape] at hx
    rw [Graph.ports_eq_shape, hxs, ← Graph.ports_eq_shape] at hk
    obtain ⟨c, ho, hp⟩ := hf.complete hx hk
    have hc := hstays hmem (Graph.contains_of_isSubgraph hx) ho hp
    refine ⟨c, ?_, ?_⟩
    · rw [Graph.owner?_eq_shape, hc, ← Graph.owner?_eq_shape, ho]
    · rw [Graph.port?_eq_shape, hc, ← Graph.port?_eq_shape, hp]
  · intro x c c' side k k' ho ho' hp hp' hlt
    exact hf.inOrder (howner ho) (howner ho') (hport ho hp) (hport ho' hp') hlt
  · intro x c k ho hp
    rw [(hports ho).1, (hports ho).2]
    exact hf.inlet (howner ho) (hport ho hp)
  · intro x c k ho hp
    rw [(hports ho).1, (hports ho).2]
    exact hf.outlet (howner ho) (hport ho hp)

end Edit
end Patchbay
