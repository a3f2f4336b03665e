import Patchbay.Proofs.Graph.Structure

/-!
# What the ports of a graph sound like

`Sounds` gives the samples of a block at every stream port of a graph, given what each unit writes at
its outlets: an inlet is the sum of what is connected to it, and the ports of a subgraph are those of
the units inside it. No buffer and no order of computation takes part. A port sounds one way only
(`Sounds.unique`).
-/

namespace Patchbay

/-- A port that carries a stream. -/
inductive StreamPort where
  | inlet (unit : UnitId) (index : Nat)
  | outlet (unit : UnitId) (index : Nat)
deriving DecidableEq

variable {U : Type}

namespace Graph

/-- The port whose stream enters an inlet from outside the subgraph: the inlet that a unit stands
for. -/
def boundary (g : Graph U) (x : UnitId) (inlet : Nat) : List StreamPort :=
  match g.owner? x, g.port? x with
  | some o, some (.inlet, k) =>
    if inlet = 0 ∧ k < (g.ports o).streamInlets then [.inlet o k] else []
  | _, _ => []

/-- The ports whose streams meet at an inlet, in the order in which they are added up. -/
def feeds (g : Graph U) (x : UnitId) (inlet : Nat) : List StreamPort :=
  g.boundary x inlet ++ (g.streamSources x inlet).map fun c => .outlet c.source c.outlet

/-- The sum of two streams. -/
def mixed (xs ys : Samples) : Samples := Array.zipWith (· + ·) xs ys

variable [Device U]

/-- The sum of the streams at some ports, from left to right, when unit `x` writes `written x o` at
its outlet `o`. -/
inductive Sounds (g : Graph U) (written : UnitId → Nat → Samples) :
    List StreamPort → Samples → Prop
  | silence : Sounds g written [] (silence g.blockSize)
  | mix {ports : List StreamPort} {port : StreamPort} {xs ys : Samples} : ports ≠ [] →
      Sounds g written ports xs → Sounds g written [port] ys →
      Sounds g written (ports ++ [port]) (mixed xs ys)
  /-- An inlet sounds like all that meets there. -/
  | inlet {x : UnitId} {i : Nat} {xs : Samples} : Sounds g written (g.feeds x i) xs →
      Sounds g written [.inlet x i] xs
  /-- An outlet of a unit sounds like what the unit writes. -/
  | own {x : UnitId} {n : Node U} {u : U} {o : Nat} : g.node? x = some n → n.body = .device u →
      Device.source u o = .pooled → Sounds g written [.outlet x o] (written x o)
  /-- An outlet that passes an inlet on sounds like the inlet. -/
  | forward {x : UnitId} {n : Node U} {u : U} {o j : Nat} {xs : Samples} : g.node? x = some n →
      n.body = .device u → Device.source u o = .forward j → j < (g.ports x).streamInlets →
      Sounds g written [.inlet x j] xs → Sounds g written [.outlet x o] xs
  /-- There may be no such inlet. -/
  | lost {x : UnitId} {n : Node U} {u : U} {o j : Nat} : g.node? x = some n →
      n.body = .device u → Device.source u o = .forward j → (g.ports x).streamInlets ≤ j →
      Sounds g written [.outlet x o] (Patchbay.silence g.blockSize)
  /-- An outlet of a subgraph sounds like the first outlet of the unit behind it. -/
  | through {x b : UnitId} {k : Nat} {xs : Samples} : g.isSubgraph x = true →
      g.portUnit? x .outlet k = some b → 0 < (g.ports b).streamOutlets →
      Sounds g written [.outlet b 0] xs → Sounds g written [.outlet x k] xs
  /-- There may be no such outlet. -/
  | closed {x : UnitId} {k : Nat} : g.isSubgraph x = true →
      (∀ b, g.portUnit? x .outlet k = some b → (g.ports b).streamOutlets = 0) →
      Sounds g written [.outlet x k] (Patchbay.silence g.blockSize)

/-- A port sounds one way only. -/
theorem Sounds.unique {g : Graph U} {written : UnitId → Nat → Samples} {ports : List StreamPort}
    {xs ys : Samples} (h : g.Sounds written ports xs) (h' : g.Sounds written ports ys) : xs = ys := by
  have hunit : ∀ {x : UnitId} {n : Node U} {u : U}, g.node? x = some n → n.body = .device u →
      g.isSubgraph x = true → False := by
    intro x n u hn hu hs
    simp [isSubgraph, hn, Node.isSubgraph, hu] at hs
  have hsame : ∀ {x : UnitId} {n n' : Node U} {u u' : U}, g.node? x = some n → n.body = .device u →
      g.node? x = some n' → n'.body = .device u' → u = u' := by
    intro x n n' u u' hn hu hn' hu'
    rw [hn] at hn'
    cases hn'
    rw [hu] at hu'
    cases hu'
    rfl
  -- a sum of several ports has a last one, and the rest is not empty
  have hlast : ∀ {ps qs : List StreamPort} {p q : StreamPort}, ps ++ [p] = qs ++ [q] →
      ps = qs ∧ p = q := by
    intro ps qs p q h
    have := List.append_inj' h rfl
    exact ⟨this.1, by simpa using this.2⟩
  have hsingle : ∀ {ps : List StreamPort} {p q : StreamPort}, ps ≠ [] → ps ++ [p] = [q] → False := by
    intro ps p q hne h
    have h' : ps ++ [p] = [] ++ [q] := by simpa using h
    exact hne (hlast h').1
  induction h generalizing ys with
  | silence =>
    generalize hp : ([] : List StreamPort) = ps at h'
    cases h' with
    | silence => rfl
    | mix => simp at hp
    | inlet | own | forward | lost | through | closed => cases hp
  | @mix ports port xs₁ xs₂ hne _ _ ih₁ ih₂ =>
    generalize hp : ports ++ [port] = ps at h'
    cases h' with
    | silence => simp at hp
    | mix _ h₁ h₂ =>
      obtain ⟨rfl, rfl⟩ := hlast hp
      rw [ih₁ h₁, ih₂ h₂]
    | inlet | own | forward | lost | through | closed => exact absurd hp fun h => hsingle hne h
  | @inlet x i xs _ ih =>
    generalize hp : [StreamPort.inlet x i] = ps at h'
    cases h' with
    | silence => cases hp
    | mix hne => exact absurd hp.symm fun h => hsingle hne h
    | inlet h =>
      cases hp
      exact ih h
    | own | forward | lost | through | closed => cases hp
  | @own x n u o hn hu hs =>
    generalize hp : [StreamPort.outlet x o] = ps at h'
    cases h' with
    | silence => cases hp
    | mix hne => exact absurd hp.symm fun h => hsingle hne h
    | inlet => cases hp
    | own =>
      cases hp
      rfl
    | forward hn' hu' hs' | lost hn' hu' hs' =>
      cases hp
      rw [← hsame hn hu hn' hu', hs] at hs'
      cases hs'
    | through hsub | closed hsub =>
      cases hp
      exact (hunit hn hu hsub).elim
  | @forward x n u o j xs hn hu hs hj _ ih =>
    generalize hp : [StreamPort.outlet x o] = ps at h'
    cases h' with
    | silence => cases hp
    | mix hne => exact absurd hp.symm fun h => hsingle hne h
    | inlet => cases hp
    | own hn' hu' hs' =>
      cases hp
      rw [← hsame hn hu hn' hu', hs] at hs'
      cases hs'
    | forward hn' hu' hs' _ h =>
      cases hp
      rw [← hsame hn hu hn' hu', hs] at hs'
      cases hs'
      exact ih h
    | lost hn' hu' hs' hj' =>
      cases hp
      rw [← hsame hn hu hn' hu', hs] at hs'
      cases hs'
      omega
    | through hsub | closed hsub =>
      cases hp
      exact (hunit hn hu hsub).elim
  | @lost x n u o j hn hu hs hj =>
    generalize hp : [StreamPort.outlet x o] = ps at h'
    cases h' with
    | silence => cases hp
    | mix hne => exact absurd hp.symm fun h => hsingle hne h
    | inlet => cases hp
    | own hn' hu' hs' =>
      cases hp
      rw [← hsame hn hu hn' hu', hs] at hs'
      cases hs'
    | forward hn' hu' hs' hj' _ =>
      cases hp
      rw [← hsame hn hu hn' hu', hs] at hs'
      cases hs'
      omega
    | lost => rfl
    | through hsub | closed hsub =>
      cases hp
      exact (hunit hn hu hsub).elim
  | @through x b k xs hsub hb hpos _ ih =>
    generalize hp : [StreamPort.outlet x k] = ps at h'
    cases h' with
    | silence => cases hp
    | mix hne => exact absurd hp.symm fun h => hsingle hne h
    | inlet => cases hp
    | own hn hu | forward hn hu | lost hn hu =>
      cases hp
      exact (hunit hn hu hsub).elim
    | through _ hb' _ h =>
      cases hp
      rw [hb] at hb'
      cases hb'
      exact ih h
    | closed _ hclosed =>
      cases hp
      have := hclosed b hb
      omega
  | @closed x k hsub hclosed =>
    generalize hp : [StreamPort.outlet x k] = ps at h'
    cases h' with
    | silence => cases hp
    | mix hne => exact absurd hp.symm fun h => hsingle hne h
    | inlet => cases hp
    | own hn hu | forward hn hu | lost hn hu =>
      cases hp
      exact (hunit hn hu hsub).elim
    | through _ hb hpos _ =>
      cases hp
      have := hclosed _ hb
      omega
    | closed => rfl

end Graph
end Patchbay
