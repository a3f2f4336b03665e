import Patchbay.Proofs.Engine.Precedence
import Patchbay.Proofs.Planning.Watching

/-!
# Every unit is scheduled once

Planning a graph that commands have led to ends, and the plan has exactly one step for each unit that
computes, wherever it lies, and none for anything else (`compile_schedules_once`). A subgraph counts as
placed only once everything inside it has been.
-/

namespace Patchbay

variable {U : Type}

namespace Plan

/-- The steps of a unit are as many as its places among the units of a plan. -/
theorem count_units (p : Plan) (x : UnitId) : p.steps.toList.count (.unit x) = p.units.count x := by
  rw [units, List.count, List.count, List.countP_filterMap]
  refine List.countP_congr fun s _ => ?_
  cases s with
  | unit y => simp [Step.unit?]
  | sum => simp [Step.unit?]

end Plan

variable [Device U]

namespace Graph

variable {g : Graph U} {R : U → U → Prop} {plan : Plan} {x : UnitId}

/-- What is gone does not compute, and neither does a subgraph. -/
theorem Computes.stands (h : g.Computes x) : g.contains x = true ∧ g.isSubgraph x = false := by
  obtain ⟨n, hn, hc⟩ := h
  refine ⟨contains_iff.2 ⟨n, hn⟩, ?_⟩
  rw [isSubgraph, hn]
  cases hbody : n.body with
  | subgraph =>
    rw [hbody] at hc
    cases hc
  | device u => simp [Node.isSubgraph, hbody]

/-- No unit of a plan has two steps. -/
theorem Planned.nodup_units (h : g.Planned R plan) : plan.units.Nodup := by
  obtain ⟨g₀, d, hg₀, hd, rfl, -⟩ := h
  exact (scheduled_fullDraft hg₀ hd).1.once

end Graph

namespace Engine

/-- Planning ends, with a plan if there is room for one. The plan has one step for each live unit that
computes, at the top level or inside any number of subgraphs, and no step for one that does not, for a
subgraph or for what is gone. The plan is of the units that computed when it was made; that is when it
is asked for, unless an earlier one is still valid, and as long as units keep whether they compute it
makes no difference. On the way, whenever a subgraph is found placed, so is everything inside it. -/
theorem compile_schedules_once {settings : Settings} {e : Engine U} (h : Reachable settings e) :
    e.graph.fullDraft ≠ .error .endless ∧
    (e.graph.HasRoom → ∃ plan g, e.graph.compile = .ok (plan, g)) ∧
    (∀ {plan : Plan} {g : Graph U}, e.graph.compile = .ok (plan, g) →
      e.graph.plan = none ∨ Law (Alike (U := U)) → ∀ x,
        (e.graph.Computes x → plan.steps.toList.count (.unit x) = 1) ∧
        (¬ e.graph.Computes x → .unit x ∉ plan.steps.toList) ∧
        (e.graph.contains x = false ∨ e.graph.isSubgraph x = true →
          .unit x ∉ plan.steps.toList)) ∧
    e.graph.fullDraftWatched = e.graph.fullDraft := by
  have hkept := kept_of_reachable .any h
  refine ⟨?_, hkept.exists_plan, ?_, Graph.fullDraftWatched_eq hkept.sound⟩
  · intro hendless
    have hfound := Graph.fullDraft_found hkept.sound
    rw [hendless] at hfound
    exact hfound (.inl rfl)
  · intro plan g hc hlaw x
    have hplan : plan.units.Nodup ∧ (x ∈ plan.units ↔ e.graph.Computes x) := by
      rcases Graph.compile_cases hc with ⟨hp, -⟩ | ⟨-, d, hd, rfl, -⟩
      · have hplanned := (kept_of_reachable (hlaw.resolve_left (by simp [hp])) h).plan plan hp
        exact ⟨hplanned.nodup_units, hplanned.mem_units⟩
      · have hunits := (Graph.scheduled_planned hkept.sound hd rfl).1 x
        rw [Plan.isSome_position?] at hunits
        exact ⟨(Graph.scheduled_fullDraft hkept.sound hd).1.once, hunits⟩
    obtain ⟨hnodup, hmem⟩ := hplan
    rw [Plan.count_units, ← Plan.mem_units, hmem]
    refine ⟨fun hx => List.count_eq_one_of_mem hnodup (hmem.2 hx), id, ?_⟩
    rintro hnot hx
    obtain ⟨hstands, hunit⟩ := hx.stands
    simp [hstands, hunit] at hnot

/-- A signal that is written to a link two subgraphs deep; a unit beside it is gone again. -/
theorem compile_schedules_once_nested : ∃ e : Engine CatalogueUnit, Reachable smallBlocks e ∧
    e.graph.HasRoom ∧ e.graph.plan = none ∧ e.graph.Computes ⟨3⟩ ∧
    e.graph.owner? ⟨3⟩ = some ⟨2⟩ ∧ e.graph.owner? ⟨2⟩ = some ⟨0⟩ ∧ e.graph.contains ⟨1⟩ = false ∧
    e.graph.isSubgraph ⟨2⟩ = true ∧
    ∃ plan g, e.graph.compile = .ok (plan, g) ∧ plan.steps.toList.count (.unit ⟨3⟩) = 1 ∧
      .unit ⟨1⟩ ∉ plan.steps.toList ∧ .unit ⟨2⟩ ∉ plan.steps.toList ∧
      e.graph.fullDraftWatched = e.graph.fullDraft := by
  obtain ⟨e, hroomy, h⟩ := exists_roomy smallBlocks
    [ .addSubgraph none, .addUnit (some ⟨0⟩) (CatalogueUnit.constant ⟨1⟩), .addSubgraph (some ⟨0⟩),
      .addUnit (some ⟨2⟩) (.linkWriter ⟨.throw, .ofString "x"⟩), .remove ⟨1⟩ ]
    (fun e => decide e.graph.HasRoom && e.graph.plan.isNone &&
      (e.graph.node? ⟨3⟩).any (·.body.computes) && e.graph.owner? ⟨3⟩ == some ⟨2⟩ &&
      e.graph.owner? ⟨2⟩ == some ⟨0⟩ && !e.graph.contains ⟨1⟩ && e.graph.isSubgraph ⟨2⟩)
    (by cbv)
  simp only [Bool.and_eq_true, decide_eq_true_eq, beq_iff_eq, Option.isNone_iff_eq_none,
    Option.any_eq_true, Bool.not_eq_true'] at h
  obtain ⟨⟨⟨⟨⟨⟨hroom, hfresh⟩, hcomputes⟩, howner⟩, howner'⟩, hgone⟩, hsub⟩ := h
  have hreach := hroomy.reachable
  obtain ⟨-, hex, hall, hwatched⟩ := compile_schedules_once hreach
  obtain ⟨plan, g, hcompile⟩ := hex hroom
  have hsteps := hall hcompile (.inl hfresh)
  exact ⟨e, hreach, hroom, hfresh, hcomputes, howner, howner', hgone, hsub, plan, g, hcompile,
    (hsteps ⟨3⟩).1 hcomputes, (hsteps ⟨1⟩).2.2 (.inl hgone), (hsteps ⟨2⟩).2.2 (.inr hsub), hwatched⟩

end Engine
end Patchbay
