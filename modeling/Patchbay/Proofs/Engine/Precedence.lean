import Patchbay.Proofs.Engine.Conservation
import Patchbay.Proofs.Graph.Resembling
import Patchbay.Proofs.Planning.Schedule

/-!
# What is heard in time

A collector hears all emitters of its link in the same block, and a delay line is read after it has
been written, unless the emitter or the owner itself depends on the reader (`compile_precedence`).
Dependence goes by subgraphs as a whole; by their single ports it would be too little
(`precedence_not_by_ports`).
-/

namespace Patchbay

open Relation

variable {U : Type}

namespace Graph

variable {g g' : Graph U}

namespace SameShape

variable (h : g.SameShape g')
include h

theorem named : g'.Named = g.Named := by
  funext w c
  simp only [Named, seat?, h.registration?]

theorem depends : g'.Depends = g.Depends := by
  have hbefore : g'.Before = g.Before := by
    funext x y
    refine propext ⟨fun hb => ?_, fun hb => ?_⟩
    · cases hb with
      | connection hc hx hy => exact .connection (h.connections ▸ hc) (h.within ▸ hx) (h.within ▸ hy)
      | name hn hw hc hx => exact .name (h.named ▸ hn) (h.within ▸ hw) (h.within ▸ hc) (h.within ▸ hx)
    · cases hb with
      | connection hc hx hy => exact .connection (h.connections ▸ hc) (h.within ▸ hx) (h.within ▸ hy)
      | name hn hw hc hx => exact .name (h.named ▸ hn) (h.within ▸ hw) (h.within ▸ hc) (h.within ▸ hx)
  funext x y
  simp only [Depends, hbefore]

end SameShape

/-- Whether a name may put a node before others. -/
def leads (g : Graph U) (x : UnitId) : Bool :=
  match g.seat? x with
  | some (.emitter ..) | some (.owner ..) => true
  | _ => false

theorem Named.leads {w c : UnitId} (h : g.Named w c) : g.leads w = true := by
  rcases h with ⟨_, _, h, -⟩ | ⟨_, h, -⟩ <;> simp [Graph.leads, h]

/-- Nothing depends on a unit at the top level that nothing is connected to. -/
theorem not_depends_of_free (hg : g.Sound) {c w : UnitId} (hunit : g.isSubgraph c = false)
    (howner : g.owner? c = none) (hfree : ∀ d ∈ g.connections, d.source ≠ c)
    (hl : g.leads c = false) : ¬ g.Depends w c := by
  have htop : ∀ {s}, g.Within c s → c = s := by
    intro s hs
    rcases hs.cases_owner with h | ⟨o, ho, -⟩
    · exact h
    · rw [howner] at ho
      cases ho
  intro h
  obtain ⟨y, hy, -⟩ := TransGen.head'_iff.1 h
  cases hy with
  | connection hd hc _ => exact hfree _ hd (htop hc).symm
  | name hn hw _ hc =>
    rw [← htop hc] at hw
    rw [eq_of_within_unit hg.nested hunit hw] at hn
    rw [hn.leads] at hl
    cases hl

variable [Device U] {R : U → U → Prop}

/-- A plan has a step for each unit that computed when it was made, in the order that names ask
for. -/
theorem scheduled_planned {plan : Plan} {g₀ : Graph U} {d : Draft} (hg₀ : g₀.Sound)
    (hd : g₀.fullDraft = .ok d) (hplan : plan = d.plan) :
    (∀ x, (plan.position? x).isSome = true ↔ g₀.Computes x) ∧
    ∀ {w c i j}, g₀.Named w c → ¬ g₀.Depends w c → plan.position? w = some i →
      plan.position? c = some j → i < j := by
  obtain ⟨hs, hplaced⟩ := scheduled_fullDraft hg₀ hd
  have hsteps : plan.steps = d.steps := by rw [hplan, Draft.plan]
  have hunits : ∀ x, (plan.position? x).isSome = true ↔ g₀.Computes x := by
    intro x
    rw [Plan.isSome_position?, Plan.mem_units, hsteps, hs.units]
    refine and_iff_right_of_imp ?_
    rintro ⟨n, hn, -⟩
    exact hplaced x (contains_iff.2 ⟨n, hn⟩)
  refine ⟨hunits, fun {w c i j} hn hdep hi hj => Plan.position?_lt (fun pre post heq => ?_) hi hj⟩
  exact hs.named (hsteps ▸ heq) hn hdep ((hunits w).1 (by simp [hi]))

/-- As long as units keep whether they compute, a plan has a step for each one that does. -/
theorem Planned.mem_units {plan : Plan} (h : g.Planned Alike plan) {x : UnitId} :
    x ∈ plan.units ↔ g.Computes x := by
  obtain ⟨g₀, d, hg₀, hd, hplan, hw⟩ := h
  rw [← Plan.isSome_position?, (scheduled_planned hg₀ hd hplan).1]
  exact hw.resembles.computes.symm

end Graph

namespace Engine

variable [Device U]

/-- An emitter comes before the collectors of its link, and the owner of a delay line before its
readers, unless it depends on them. The plan has a place for each unit that computed when it was
made; that is when the plan is asked for, unless an earlier one is still valid, and as long as units
keep whether they compute it makes no difference. -/
theorem compile_precedence {settings : Settings} {e : Engine U} (h : Reachable settings e) :
    (e.graph.HasRoom → ∃ plan g, e.graph.compile = .ok (plan, g)) ∧
    ∀ {plan : Plan} {g : Graph U}, e.graph.compile = .ok (plan, g) →
      (e.graph.plan = none ∨ Law (Alike (U := U)) →
        ∀ x, (plan.position? x).isSome = true ↔ e.graph.Computes x) ∧
      ∀ {w c : UnitId} {i j : Nat}, e.graph.Named w c → ¬ e.graph.Depends w c →
        plan.position? w = some i → plan.position? c = some j → i < j := by
  have hkept := kept_of_reachable .any h
  refine ⟨hkept.exists_plan, fun {plan g} hc => ?_⟩
  rcases Graph.compile_cases hc with ⟨hp, -⟩ | ⟨-, d, hd, hplan, -⟩
  · refine ⟨fun hlaw x => ?_, fun {w c i j} hn hdep => ?_⟩
    · have hlaw := hlaw.resolve_left (by simp [hp])
      rw [Plan.isSome_position?]
      exact ((kept_of_reachable hlaw h).plan plan hp).mem_units
    · obtain ⟨g₀, d, hg₀, hd, hplan, hw⟩ := hkept.plan plan hp
      have hshape : g₀.SameShape e.graph := ⟨hw.shape.size, hw.shape.shape, hw.shape.connections⟩
      rw [hshape.named] at hn
      rw [hshape.depends] at hdep
      exact (Graph.scheduled_planned hg₀ hd hplan).2 hn hdep
  · obtain ⟨hunits, hnamed⟩ := Graph.scheduled_planned hkept.sound hd hplan
    exact ⟨fun _ => hunits, hnamed⟩

/-- An emitter inside a subgraph, and a collector outside of it that was added before. -/
theorem compile_precedence_subgraph : ∃ e : Engine CatalogueUnit, Reachable smallBlocks e ∧
    e.graph.HasRoom ∧ e.graph.Named ⟨2⟩ ⟨0⟩ ∧ ¬ e.graph.Depends ⟨2⟩ ⟨0⟩ ∧
    ∃ plan g i j, e.graph.compile = .ok (plan, g) ∧ plan.position? ⟨2⟩ = some i ∧
      plan.position? ⟨0⟩ = some j ∧ i < j := by
  obtain ⟨e, hroomy, h⟩ := exists_roomy smallBlocks
    [ .addUnit none (CatalogueUnit.linkReader ⟨.throw, .ofString "x"⟩), .addSubgraph none,
      .addUnit (some ⟨1⟩) (.linkWriter ⟨.throw, .ofString "x"⟩) ]
    (fun e => decide e.graph.HasRoom && e.graph.plan.isNone &&
      e.graph.seat? ⟨2⟩ == some (.emitter .throw (.ofString "x")) &&
      e.graph.seat? ⟨0⟩ == some (.collector .throw (.ofString "x")) &&
      (e.graph.owner? ⟨0⟩).isNone && e.graph.connections.isEmpty &&
      (e.graph.node? ⟨0⟩).any (·.body.computes) && (e.graph.node? ⟨2⟩).any (·.body.computes))
    (by cbv)
  simp only [Bool.and_eq_true, decide_eq_true_eq, beq_iff_eq, Option.isNone_iff_eq_none,
    List.isEmpty_iff, Option.any_eq_true] at h
  obtain ⟨⟨⟨⟨⟨⟨⟨hroom, hplan⟩, hw⟩, hc⟩, howner⟩, hconn⟩, hcc⟩, hcw⟩ := h
  have hreach := hroomy.reachable
  have hnamed : e.graph.Named ⟨2⟩ ⟨0⟩ := .inl ⟨_, _, hw, hc⟩
  have hsound := (kept_of_reachable .any hreach).sound
  have hfree : ¬ e.graph.Depends ⟨2⟩ ⟨0⟩ := Graph.not_depends_of_free hsound
    (hnamed.not_subgraph hsound.registered).2 howner (by simp [hconn]) (by simp [Graph.leads, hc])
  obtain ⟨hex, hall⟩ := compile_precedence hreach
  obtain ⟨plan, g, hcompile⟩ := hex hroom
  obtain ⟨hunits, hlt⟩ := hall hcompile
  obtain ⟨i, hi⟩ := Option.isSome_iff_exists.1 ((hunits (.inl hplan) ⟨2⟩).2 hcw)
  obtain ⟨j, hj⟩ := Option.isSome_iff_exists.1 ((hunits (.inl hplan) ⟨0⟩).2 hcc)
  exact ⟨e, hreach, hroom, hnamed, hfree, plan, g, i, j, hcompile, hi, hj, hlt hnamed hfree hi hj⟩

end Engine

/-! ## Dependence by ports -/

namespace Graph

variable {g : Graph U}

/-- The node at which a connection starts: the one behind the outlet, if it leaves a subgraph. -/
def departure (g : Graph U) (c : Connection) : UnitId :=
  if g.isSubgraph c.source then (g.portUnit? c.source .outlet c.outlet).getD c.source else c.source

/-- The node to which a connection leads: the one behind the inlet, if it enters a subgraph. -/
def arrival (g : Graph U) (c : Connection) : UnitId :=
  if g.isSubgraph c.dest then (g.portUnit? c.dest .inlet c.inlet).getD c.dest else c.dest

/-- Whether a node comes before another by a connection of their own ports, or by a name. -/
inductive Joins (g : Graph U) : UnitId → UnitId → Prop
  | connection {c : Connection} : c ∈ g.connections → Joins g (g.departure c) (g.arrival c)
  | name {w c : UnitId} : g.Named w c → Joins g w c

/-- Whether no connection leads out of a set of nodes, and no name puts one of them before
others. -/
def closed (g : Graph U) (nodes : List UnitId) : Bool :=
  (g.connections.all fun c => !nodes.contains (g.departure c) || nodes.contains (g.arrival c)) &&
    nodes.all fun x => !g.leads x

theorem not_joins {nodes : List UnitId} (h : g.closed nodes = true) {x y : UnitId} (hx : x ∈ nodes)
    (hy : y ∉ nodes) : ¬ TransGen g.Joins x y := by
  rw [closed, Bool.and_eq_true, List.all_eq_true, List.all_eq_true] at h
  have hstep : ∀ {x y}, x ∈ nodes → g.Joins x y → y ∈ nodes := by
    intro x y hx hxy
    cases hxy with
    | connection hc => simpa [hx] using h.1 _ hc
    | name hn => simpa [hn.leads] using h.2 _ hx
  intro hxy
  refine hy ?_
  clear hy
  induction hxy with
  | single h => exact hstep hx h
  | tail _ h ih => exact hstep ih h

end Graph

namespace Engine

open Catalogue

/-- That a patch has a plan with `c` before `w`, although a name puts `w` before `c`, and `w` does
not depend on `c` by ports. -/
def Disorders (commands : List (Command CatalogueUnit)) (w c : UnitId) : Prop :=
  ∃ e, build smallBlocks commands = some e ∧ e.graph.Named w c ∧ ¬ TransGen e.graph.Joins c w ∧
    ∃ plan g i j, e.graph.compile = .ok (plan, g) ∧ plan.position? w = some i ∧
      plan.position? c = some j ∧ j < i

/-- A check that finds a patch in disorder, given nodes that nothing leads out of. -/
def disordered (nodes : List UnitId) (name : Symbol) (w c : UnitId) (i j : Nat) (g : Graph CatalogueUnit) :
    Bool :=
  g.seat? w == some (.emitter .throw name) && g.seat? c == some (.collector .throw name) &&
    g.closed nodes && nodes.contains c && !nodes.contains w &&
    (g.compile.toOption.any fun r =>
      r.1.position? w == some i && r.1.position? c == some j) && decide (j < i)

theorem disorders_of_build {commands : List (Command CatalogueUnit)} {w c : UnitId}
    (nodes : List UnitId) (name : Symbol) (i j : Nat)
    (h : (build smallBlocks commands).any (disordered nodes name w c i j ·.graph) = true) :
    Disorders commands w c := by
  obtain ⟨e, he, h⟩ := (Option.any_eq_true ..).1 h
  simp only [disordered, Bool.and_eq_true, beq_iff_eq, Bool.not_eq_true', List.contains_eq_mem,
    decide_eq_true_eq, decide_eq_false_iff_not] at h
  obtain ⟨⟨⟨⟨⟨⟨hw, hc⟩, hclosed⟩, hcs⟩, hws⟩, hplan⟩, hlt⟩ := h
  obtain ⟨⟨plan, g⟩, hr, hpos⟩ := (Option.any_eq_true ..).1 hplan
  simp only [Bool.and_eq_true, beq_iff_eq] at hpos
  refine ⟨e, he, .inl ⟨_, _, hw, hc⟩, Graph.not_joins hclosed hcs hws, plan, g, i, j, ?_, hpos.1,
    hpos.2, hlt⟩
  cases hcomp : e.graph.compile with
  | error f =>
    rw [hcomp] at hr
    cases hr
  | ok r =>
    rw [hcomp] at hr
    cases hr
    rfl

/-- Dependence by ports is not what the order goes by. The inlets of a subgraph are bound before
anything that the subgraph holds is placed; everything in it is placed before what reads it; and it is
placed as a whole when one unit in it must come first. -/
theorem precedence_not_by_ports :
    Disorders
      [ .addUnit none (.hostOutput ⟨1⟩), .addUnit none (.linkReader ⟨.throw, .ofString "x"⟩),
        .addSubgraph none, .addUnit (some ⟨2⟩) (.port ⟨.inlet, true⟩),
        .addUnit (some ⟨2⟩) (.linkWriter ⟨.throw, .ofString "x"⟩),
        .connect ⟨⟨1⟩, 0, ⟨0⟩, 0⟩, .connect ⟨⟨1⟩, 0, ⟨2⟩, 0⟩ ] ⟨4⟩ ⟨1⟩ ∧
    Disorders
      [ .addSubgraph none, .addUnit (some ⟨0⟩) (.port ⟨.outlet, true⟩),
        .addUnit (some ⟨0⟩) (.linkReader ⟨.throw, .ofString "x"⟩),
        .addUnit none (.linkWriter ⟨.throw, .ofString "x"⟩), .connect ⟨⟨0⟩, 0, ⟨3⟩, 0⟩ ] ⟨3⟩ ⟨2⟩ ∧
    Disorders
      [ .addUnit none (.linkReader ⟨.throw, .ofString "x"⟩),
        .addUnit none (.linkWriter ⟨.throw, .ofString "y"⟩), .connect ⟨⟨0⟩, 0, ⟨1⟩, 0⟩,
        .addSubgraph none, .addUnit (some ⟨2⟩) (.linkWriter ⟨.throw, .ofString "x"⟩),
        .addUnit (some ⟨2⟩) (.linkReader ⟨.throw, .ofString "y"⟩) ] ⟨1⟩ ⟨4⟩ := by
  refine ⟨disorders_of_build [⟨0⟩, ⟨1⟩, ⟨3⟩] (.ofString "x") 1 0 ?_,
    disorders_of_build [⟨2⟩] (.ofString "x") 1 0 ?_,
    disorders_of_build [⟨4⟩] (.ofString "y") 3 1 ?_⟩
  · cbv
  · cbv
  · cbv

end Engine
end Patchbay
