import Patchbay.Catalogue
import Patchbay.Proofs.Engine.Reachable
import Patchbay.Proofs.Planning.Books

/-!
# Buffers are given back

Planning a graph that commands have led to breaks no rule of the buffer pool, and gives back every
buffer that it has been handed (`compile_conserves`). The only thing that it relies on is that there
are fewer nodes and connections than can be counted (`Graph.HasRoom`).
-/

namespace Patchbay

variable {U : Type} [Device U] {R : U → U → Prop}

namespace Graph

variable {g g' : Graph U}

/-- A graph with room has a plan. -/
theorem Kept.exists_plan (h : g.Kept R) (hroom : g.HasRoom) :
    ∃ plan g', g.compile = .ok (plan, g') := by
  cases hp : g.plan with
  | some plan => exact ⟨plan, g, compile_of_plan hp⟩
  | none =>
    obtain ⟨d, hd, -⟩ := fullDraft_books h.sound hroom (.trivial g)
    exact ⟨d.plan, g.planned d, compile_of_draft hp hd⟩

/-- While a plan is in force no buffer is held. -/
theorem Planned.balances {plan : Plan} (h : g.Planned R plan) (hroom : g.HasRoom) :
    g.pool.Balances [] := by
  obtain ⟨g₀, d, hg₀, hd, -, hw⟩ := h
  have hshape : g₀.SameShape (g₀.planned d) := ⟨rfl, fun _ => rfl, rfl⟩
  obtain ⟨d', hd', hbalances, -⟩ :=
    fullDraft_books hg₀ ((hshape.trans hw.shape).symm.hasRoom hroom) (.trivial g₀)
  rw [hd] at hd'
  cases hd'
  exact hw.pool.balances hbalances

end Graph

namespace Engine

/-- Planning never breaks a rule of the buffer pool. When it is done, every reader that a buffer was
handed out with has given it back. -/
theorem compile_conserves {settings : Settings} {e : Engine U} (h : Reachable settings e)
    (hroom : e.graph.HasRoom) :
    ∃ plan g, e.graph.compile = .ok (plan, g) ∧ g.pool.stats.live = 0 ∧
      g.pool.stats.acquired = g.pool.stats.released := by
  have hkept := kept_of_reachable .any h
  obtain ⟨plan, g, hc⟩ := hkept.exists_plan hroom
  have hshape : e.graph.SameShape g := by
    rcases Graph.compile_cases hc with ⟨-, rfl⟩ | ⟨-, d, -, -, rfl⟩
    · exact .refl _
    · exact ⟨rfl, fun _ => rfl, rfl⟩
  have hbalances := (hkept.planned .any hc).balances (hshape.hasRoom hroom)
  exact ⟨plan, g, hc, hbalances.stats_eq (by simp)⟩

/-- Settings with small blocks. -/
def smallBlocks : Settings where
  sampleRate := 1000
  blockSize := 8
  inputChannels := 0
  outputChannels := 1

/-- Two streams meet at one inlet, and a third is read by nobody. -/
theorem compile_conserves_sum : ∃ e : Engine CatalogueUnit, Reachable smallBlocks e ∧
    e.graph.HasRoom ∧ ∃ plan g, e.graph.compile = .ok (plan, g) ∧ g.pool.stats.live = 0 ∧
      g.pool.stats.acquired = g.pool.stats.released := by
  obtain ⟨e, hroomy, hroom⟩ := exists_roomy smallBlocks
    [ .addUnit none (CatalogueUnit.constant ⟨1⟩), .addUnit none (.constant ⟨2⟩),
      .addUnit none (.constant ⟨3⟩), .addUnit none (.hostOutput ⟨1⟩),
      .connect ⟨⟨0⟩, 0, ⟨3⟩, 0⟩, .connect ⟨⟨1⟩, 0, ⟨3⟩, 0⟩ ]
    (fun e => decide e.graph.HasRoom) (by cbv)
  have hroom := of_decide_eq_true hroom
  exact ⟨e, hroomy.reachable, hroom, compile_conserves hroomy.reachable hroom⟩

end Engine
end Patchbay
