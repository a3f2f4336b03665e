import Patchbay.Proofs.Engine.Safety
import Patchbay.Proofs.Engine.Topology

/-!
# Engines that stay ready

Whether an engine is ready for a block is a matter of its settings and its graph alone
(`Ready.of_graph`). Edits keep it ready as long as they add no units but those of the catalogue
(`Ready.edit`), and so does the computing of a block (`exists_block`).
-/

namespace Patchbay.Engine

variable {settings : Settings} {e e' : Engine CatalogueUnit}

/-- The queue, the journal and what else there is beside the graph do not matter. -/
theorem Ready.of_graph (h : e.Ready settings) (hsettings : e'.settings = e.settings)
    (hgraph : e'.graph = e.graph) : e'.Ready settings :=
  ⟨h.room, ⟨hsettings.trans h.fit.same, hgraph ▸ h.fit.graph⟩, hgraph ▸ h.kept, hgraph ▸ h.stores⟩

theorem ready_of_new (h : Engine.new settings = .ok e) : e.Ready settings :=
  Patched.ready (.start h)

/-- An edit that leaves units that fit leaves the engine ready. -/
theorem Ready.edit (h : e.Ready settings) {α : Type} {change : Edit CatalogueUnit α} {a : α}
    {g : Graph CatalogueUnit} (hproper : change.Proper) (hchange : change e.graph = .ok a g)
    (hfitted : g.Fitted settings) : (e.withGraph g).Ready settings := by
  obtain ⟨hplan, hpool⟩ := hproper.outdates hchange
  have hsound := hproper.sound h.kept.sound hchange
  have hsame : g.Works Alike Eq { g with notices := #[] } :=
    g.works_notices CatalogueUnit.steady.alike.refl _
  refine ⟨h.room, ⟨h.fit.same, hfitted.of_nodes rfl rfl⟩, ?_, ?_⟩
  · exact (Graph.Kept.of_plan_eq_none hsound hplan).works CatalogueUnit.steady.alike (hsame.mono .of_eq)
  · obtain ⟨m, hm⟩ := h.stores
    exact ⟨m, show g.pool.Stores _ m from hpool ▸ hm⟩

/-- A refused edit leaves the graph, and at most the journal grows. -/
theorem Ready.declined (h : e.Ready settings) : (e.withGraph e.graph).Ready settings := by
  have hsame : e.graph.Works Alike Eq { e.graph with notices := #[] } :=
    e.graph.works_notices CatalogueUnit.steady.alike.refl _
  exact ⟨h.room, ⟨h.fit.same, h.fit.graph.of_nodes rfl rfl⟩,
    h.kept.works CatalogueUnit.steady.alike (hsame.mono .of_eq), h.stores⟩

/-- When all that is due has been handed back, a block is computed, and the engine is ready for the
next. -/
theorem exists_block (h : e.Ready settings) (hroom : e.graph.HasRoom) {input : Samples}
    {outLength : Nat} (hlength : outLength * sampleBytes < addressable) {drained : Engine CatalogueUnit}
    (hdrain : drain e.blockEnd roundLimit (openBlock input e) = .ok ⟨⟩ drained) :
    ∃ block next, process input outLength e = .ok block next ∧ next.Ready settings ∧
      next.graph.HasRoom := by
  obtain ⟨plan, started, hcompile, hstaged⟩ := staged_of_drain h hroom hdrain
  have hplay : Yields _ _ (play plan plan.steps.toList started) :=
    play_staged h.room hstaged fun _ hs => hs
  obtain ⟨_, ended, hrun, hend⟩ := hplay.exists_ok
  have hprocess := process_of_play hlength hdrain hcompile hrun
  have hturn : Turn Alike e { ended with blockStart := e.blockEnd } :=
    .played drained started plan ended (works_opened CatalogueUnit.steady.alike hdrain) hcompile hrun rfl
  exact ⟨_, _, hprocess, ⟨h.room, ⟨hend.fit.same, hend.fit.graph⟩,
    hturn.kept CatalogueUnit.steady.alike h.kept, hend.stores⟩,
    (sameShape_process hprocess).hasRoom hroom⟩

end Patchbay.Engine
