import Patchbay.Proofs.Engine.Buffers
import Patchbay.Proofs.Engine.Delivery
import Patchbay.Proofs.Planning.Memory
import Patchbay.Proofs.Planning.Schedule

/-!
# Graphs that sound alike

A graph at work keeps its shape, and its units keep what planning looks at. That is all that decides
how its ports sound (`Resembles.sounds`), so a plan goes on to be right while the graph works.
-/

namespace Patchbay

variable {U : Type} [Device U]

omit [Device U] in
theorem Body.Becomes.symm {R : U → U → Prop} (hR : ∀ u v, R u v → R v u) {b b' : Body U}
    (h : b.Becomes R b') : b'.Becomes R b := by
  cases b <;> cases b' <;> simp only [Body.Becomes] at h ⊢
  exact hR _ _ h

theorem Alike.refl (u : U) : Alike u u := ⟨rfl, fun _ => rfl⟩

theorem Alike.symm {u v : U} (h : Alike u v) : Alike v u :=
  ⟨h.computes.symm, fun o => (h.source o).symm⟩

theorem Body.Becomes.computes {b b' : Body U} (h : b.Becomes Alike b') :
    b'.computes = b.computes := by
  cases b <;> cases b' <;> simp only [Body.Becomes] at h
  · exact h.computes
  · rfl

namespace Graph

variable {g g' g'' : Graph U}

namespace SameShape

variable (h : g.SameShape g')
include h

omit [Device U] in
theorem portUnit? (x : UnitId) (side : Side) (k : Nat) :
    g'.portUnit? x side k = g.portUnit? x side k := by
  have hids : g'.ids = g.ids := by
    have : g'.contains = g.contains := funext h.contains
    rw [ids, ids, h.size, this]
  have hport : ∀ c, (g'.node? c).any (·.port == some (side, k)) =
      (g.node? c).any (·.port == some (side, k)) := by
    have hany : ∀ (g : Graph U) c, (g.node? c).any (·.port == some (side, k)) =
        (g.port? c == some (side, k)) := by
      intro g c
      cases hn : g.node? c <;> simp [Graph.port?, hn]
    intro c
    rw [hany, hany, h.port?]
  simp only [Graph.portUnit?, children, hids, h.owner?, hport]

omit [Device U] in
theorem feeds (x : UnitId) (i : Nat) : g'.feeds x i = g.feeds x i := by
  have hboundary : g'.boundary x i = g.boundary x i := by
    simp only [boundary, h.owner?, h.port?, h.ports]
  have hsources : g'.streamSources x i = g.streamSources x i := by
    simp only [streamSources, h.connections, h.kindOf]
  rw [Graph.feeds, Graph.feeds, hboundary, hsources]

end SameShape

/-- That two graphs differ in nothing that planning looks at. -/
structure Resembles (g g' : Graph U) : Prop where
  shape : g.SameShape g'
  bodies : ∀ {id n n'}, g.node? id = some n → g'.node? id = some n' → n.body.Becomes Alike n'.body
  blockSize : g'.blockSize = g.blockSize

theorem Works.resembles (h : g.Works Alike Pool.SameBooks g') : g.Resembles g' :=
  ⟨h.shape, h.bodies, h.pool.blockSize⟩

namespace Resembles

theorem of_nodes (hn : g'.nodes = g.nodes) (hc : g'.connections = g.connections)
    (hb : g'.blockSize = g.blockSize) : g.Resembles g' := by
  have hnode : ∀ x, g'.node? x = g.node? x := fun x => by rw [node?, node?, hn]
  refine ⟨⟨by rw [hn], fun x => by rw [shape?, shape?, hnode], hc⟩, fun {x n n'} h h' => ?_, hb⟩
  rw [hnode, h] at h'
  cases h'
  exact .refl .refl _

theorem symm (h : g.Resembles g') : g'.Resembles g :=
  ⟨h.shape.symm, fun hn hn' => (h.bodies hn' hn).symm fun _ _ => .symm, h.blockSize.symm⟩

/-- A unit of the one is a unit of the other. -/
theorem exists_unit (h : g.Resembles g') {x : UnitId} {n : Node U} {u : U}
    (hn : g.node? x = some n) (hu : n.body = .device u) :
    ∃ n' v, g'.node? x = some n' ∧ n'.body = .device v ∧ Alike u v := by
  obtain ⟨n', hn'⟩ := contains_iff.1 ((h.shape.contains x).trans (contains_iff.2 ⟨n, hn⟩))
  have hb := h.bodies hn hn'
  rw [hu] at hb
  cases hv : n'.body with
  | subgraph =>
    rw [hv] at hb
    exact hb.elim
  | device v =>
    rw [hv] at hb
    exact ⟨n', v, hn', hv, hb⟩

/-- The same units compute. -/
theorem computes (h : g.Resembles g') {x : UnitId} : g'.Computes x ↔ g.Computes x := by
  have hone : ∀ {g g' : Graph U}, g.Resembles g' → g.Computes x → g'.Computes x := by
    rintro g g' h ⟨n, hn, hc⟩
    obtain ⟨n', hn'⟩ := contains_iff.1 ((h.shape.contains x).trans (contains_iff.2 ⟨n, hn⟩))
    exact ⟨n', hn', (h.bodies hn hn').computes.trans hc⟩
  exact ⟨hone h.symm, hone h⟩

theorem pooledComputes (h : g.Resembles g') (hg : g.PooledComputes) : g'.PooledComputes := by
  intro x n' v o hn' hv ho hs
  obtain ⟨n, u, hn, hu, ha⟩ := h.symm.exists_unit hn' hv
  rw [h.shape.ports] at ho
  rw [← ha.computes]
  exact hg x n u o hn hu ho ((ha.source o).trans hs)

/-- Ports sound the same in both. -/
theorem sounds (h : g.Resembles g') {written : UnitId → Nat → Samples} {ports : List StreamPort}
    {xs : Samples} (hs : g.Sounds written ports xs) : g'.Sounds written ports xs := by
  induction hs with
  | silence =>
    rw [← h.blockSize]
    exact .silence
  | mix hne _ _ ih ih' => exact .mix hne ih ih'
  | inlet _ ih => exact .inlet (h.shape.feeds .. ▸ ih)
  | own hn hu hs =>
    obtain ⟨n', v, hn', hv, ha⟩ := h.exists_unit hn hu
    exact .own hn' hv ((ha.source _).trans hs)
  | forward hn hu hs hj _ ih =>
    obtain ⟨n', v, hn', hv, ha⟩ := h.exists_unit hn hu
    exact .forward hn' hv ((ha.source _).trans hs) (h.shape.ports _ ▸ hj) ih
  | lost hn hu hs hj =>
    obtain ⟨n', v, hn', hv, ha⟩ := h.exists_unit hn hu
    rw [← h.blockSize]
    exact .lost hn' hv ((ha.source _).trans hs) (h.shape.ports _ ▸ hj)
  | through hsub hb hpos _ ih =>
    exact .through ((h.shape.isSubgraph _).trans hsub) ((h.shape.portUnit? ..).trans hb)
      (h.shape.ports _ ▸ hpos) ih
  | closed hsub hnone =>
    rw [← h.blockSize]
    refine .closed ((h.shape.isSubgraph _).trans hsub) fun b hb => ?_
    rw [h.shape.ports]
    exact hnone b ((h.shape.portUnit? ..).symm.trans hb)

end Resembles
end Graph
end Patchbay
