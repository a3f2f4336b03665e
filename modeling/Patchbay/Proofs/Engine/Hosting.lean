import Patchbay.Proofs.Catalogue.Steady
import Patchbay.Proofs.Engine.Delivery

/-!
# Units of the catalogue among others

An engine may have units of any kind, and among them units of the catalogue (`Graph.Hosts`). The units
of links and the ports of subgraphs never become anything else, whatever happens to them
(`law_stays`), so where there is one it remains (`Hosts.works`).
-/

namespace Patchbay

open Catalogue

/-! ## Units that never change -/

/-- Whether a unit of the catalogue is at a link, or a port: such units never change. -/
def CatalogueUnit.IsFixed (c : CatalogueUnit) : Prop :=
  (∃ w, c = .linkWriter w) ∨ (∃ r, c = .linkReader r) ∨ ∃ p, c = .port p

variable {U : Type} {f : CatalogueUnit → U}

/-- Whether a unit that never changes stays what it is. -/
def Stays (f : CatalogueUnit → U) (u v : U) : Prop :=
  ∀ c : CatalogueUnit, c.IsFixed → u = f c → v = f c

/-- That some units of the catalogue stay what they are, whatever happens to them. -/
structure CatalogueUnit.Unchanging (kind : CatalogueUnit → Prop) : Prop where
  receive : ∀ {c}, kind c → ∀ inlet message here, (c.receive inlet message here).Ends (· = c)
  emit : ∀ {c}, kind c → ∀ outlet message, (c.emit outlet message).Ends (· = c)
  process : ∀ {c c' : CatalogueUnit} {ins outs outs' first last}, kind c →
    c.process ins outs first last = .ok (c', outs') → c' = c
  rewired : ∀ {c : CatalogueUnit}, kind c → ∀ counts, c.rewired counts = c

namespace CatalogueUnit

variable {c : CatalogueUnit} (hc : c.IsFixed)
include hc

theorem ends_receive_of_fixed (inlet : Nat) (message : Message) (here : Surroundings) :
    (c.receive inlet message here).Ends (· = c) := by
  obtain ⟨w, rfl⟩ | ⟨r, rfl⟩ | ⟨p, rfl⟩ := hc
  · rfl
  · rfl
  · refine .map ?_
    unfold Port.receive
    split <;> exact rfl

theorem ends_emit_of_fixed (outlet : Nat) (message : Message) :
    (c.emit outlet message).Ends (· = c) := by
  obtain ⟨w, rfl⟩ | ⟨r, rfl⟩ | ⟨p, rfl⟩ := hc <;> rfl

theorem process_eq_of_fixed {c' : CatalogueUnit} {ins : Inputs} {outs outs' : Outputs}
    {first last : Nat} (h : c.process ins outs first last = .ok (c', outs')) : c' = c := by
  obtain ⟨w, rfl⟩ | ⟨r, rfl⟩ | ⟨p, rfl⟩ := hc
  · obtain ⟨_, -, h⟩ := bind_eq_ok.1 h
    cases h
    rfl
  · obtain ⟨_, -, h⟩ := bind_eq_ok.1 h
    cases h
    rfl
  · cases h
    rfl

end CatalogueUnit

theorem CatalogueUnit.unchanging_fixed : Unchanging IsFixed where
  receive := ends_receive_of_fixed
  emit := ends_emit_of_fixed
  process hc h := process_eq_of_fixed hc h
  rewired := by
    rintro c (⟨w, rfl⟩ | ⟨r, rfl⟩ | ⟨p, rfl⟩) counts <;> rfl

section Law

variable [Device U]

/-- Units of a kind that never changes stay what they are, whatever is known of all others. -/
theorem law_of_unchanging (hf : Faithful f) {kind : CatalogueUnit → Prop}
    (hkind : CatalogueUnit.Unchanging kind) : Law fun u v : U => ∀ c, kind c → u = f c → v = f c where
  refl _ _ _ h := h
  trans _ _ _ h h' c hc hu := h' c hc (h c hc hu)
  receive u inlet message here := by
    by_cases hfixed : ∃ c : CatalogueUnit, kind c ∧ u = f c
    · obtain ⟨c, hc, rfl⟩ := hfixed
      rw [hf.receive]
      refine .map ((hkind.receive hc inlet message here).mono ?_)
      rintro _ rfl
      exact fun _ _ h => h
    · exact .of_forall (fun _ c hc hu => absurd ⟨c, hc, hu⟩ hfixed) _
  emit u outlet message here := by
    by_cases hfixed : ∃ c : CatalogueUnit, kind c ∧ u = f c
    · obtain ⟨c, hc, rfl⟩ := hfixed
      rw [hf.emit]
      refine .map ((hkind.emit hc outlet message).mono ?_)
      rintro _ rfl
      exact fun _ _ h => h
    · exact .of_forall (fun _ c hc hu => absurd ⟨c, hc, hu⟩ hfixed) _
  process {u v ins outs outs' first last} h := by
    rintro c hc rfl
    rw [hf.process] at h
    cases hp : Device.process c ins outs first last with
    | error how =>
      rw [hp] at h
      cases h
    | ok r =>
      rw [hp] at h
      cases h
      rw [hkind.process hc hp]
  rewired u inlet counts := by
    rintro c hc rfl
    rw [hf.rewired]
    exact congrArg f (hkind.rewired hc counts)

/-- Units that never change stay what they are. -/
theorem law_stays (hf : Faithful f) : Law (Stays f) :=
  law_of_unchanging hf CatalogueUnit.unchanging_fixed

end Law

/-! ## Where they are -/

namespace Graph

/-- Whether a node is a unit of the catalogue, with the ports and the role of that unit. -/
def Hosts (g : Graph U) (f : CatalogueUnit → U) (x : UnitId) (c : CatalogueUnit) : Prop :=
  ∃ n, g.node? x = some n ∧ n.body = .device (f c) ∧ n.ports = c.ports ∧
    n.registration = c.registration

variable {g g' : Graph U} {x : UnitId} {c : CatalogueUnit} {Q : Pool → Pool → Prop}

theorem Hosts.registration? (h : g.Hosts f x c) : g.registration? x = c.registration := by
  obtain ⟨n, hn, -, -, hrole⟩ := h
  rw [Graph.registration?, hn, Option.bind_some, hrole]

theorem Hosts.ports (h : g.Hosts f x c) : g.ports x = c.ports := by
  obtain ⟨n, hn, -, hports, -⟩ := h
  rw [Graph.ports, hn, Option.map_some, Option.getD_some, hports]

/-- A unit of a kind that never changes is there for good. -/
theorem Hosts.of_unchanging (h : g.Hosts f x c) {kind : CatalogueUnit → Prop} (hc : kind c)
    (hw : g.Works (fun u v => ∀ c, kind c → u = f c → v = f c) Q g') : g'.Hosts f x c := by
  obtain ⟨n, hn, hu, hports, hrole⟩ := h
  have hshape := hw.shape.shape x
  rw [shape?, shape?, hn, Option.map_some, Option.map_eq_some_iff] at hshape
  obtain ⟨n', hn', hsame⟩ := hshape
  have hbecomes := hw.bodies hn hn'
  rw [hu] at hbecomes
  refine ⟨n', hn', ?_, (congrArg NodeShape.ports hsame).trans hports,
    (congrArg NodeShape.registration hsame).trans hrole⟩
  cases hv : n'.body with
  | subgraph =>
    rw [hv] at hbecomes
    exact hbecomes.elim
  | device v =>
    rw [hv] at hbecomes
    rw [hbecomes c hc rfl]

theorem Hosts.works (h : g.Hosts f x c) (hc : c.IsFixed) (hw : g.Works (Stays f) Q g') :
    g'.Hosts f x c :=
  h.of_unchanging hc hw

theorem Hosts.of_nodes (h : g.Hosts f x c) (hnodes : g'.nodes = g.nodes) : g'.Hosts f x c := by
  obtain ⟨n, hn, hc⟩ := h
  exact ⟨n, by rw [node?, hnodes]; exact hn, hc⟩

end Graph

/-- Whether a node has the ports and the role of the unit in it. -/
def Node.isGenuine (n : Node CatalogueUnit) : Bool :=
  match n.body with
  | .subgraph => n.registration.isNone
  | .device c => decide (n.ports = c.ports) && decide (n.registration = c.registration)

namespace Graph

variable {g : Graph CatalogueUnit} (h : (g.nodes.all fun n => n.all Node.isGenuine) = true)
  {x : UnitId} {n : Node CatalogueUnit} (hn : g.node? x = some n)
include h hn

theorem isGenuine_of_all : n.isGenuine = true := by
  have hmem : some n ∈ g.nodes := by
    rw [node?, Option.join_eq_some_iff] at hn
    exact Array.mem_of_getElem? hn
  exact Array.all_eq_true'.1 h _ hmem

theorem hosts_of_all {c : CatalogueUnit} (hc : n.body = .device c) : g.Hosts id x c := by
  have hgenuine := isGenuine_of_all h hn
  simp only [Node.isGenuine, hc, Bool.and_eq_true, decide_eq_true_eq] at hgenuine
  exact ⟨n, hn, hc, hgenuine⟩

end Graph
end Patchbay
