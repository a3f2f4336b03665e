import Patchbay.Proofs.Engine.Moves
import Patchbay.Proofs.Graph.Fitted

/-!
# Engines with units of the catalogue

A **patched** engine is one that commands lead to if every unit is one that the catalogue makes, as long
as nodes and connections can be counted. What messages and events do to such an engine leaves every
unit one that fits (`fitted_of_moves`).
-/

namespace Patchbay.Engine

/-- Whether all units that a command may add are made by the catalogue. -/
def Command.Catalogued (settings : Settings) (c : Command CatalogueUnit) : Prop :=
  ∀ u, c.Makes (.device u) → u.Made settings

/-- The engines that commands lead to from a new one if all units are made by the catalogue, as long
as nodes and connections can be counted. -/
inductive Patched (settings : Settings) : Engine CatalogueUnit → Prop
  | start {e : Engine CatalogueUnit} : Engine.new settings = .ok e → Patched settings e
  | step {e e' : Engine CatalogueUnit} {c : Command CatalogueUnit} : Patched settings e →
      e.graph.HasRoom → c.Catalogued settings → e.after c = some e' → Patched settings e'

variable {settings : Settings} {e e' : Engine CatalogueUnit}

theorem Patched.roomy (h : Patched settings e) : Roomy settings e := by
  induction h with
  | start hnew => exact .start hnew
  | step _ hroom _ hafter ih => exact ih.step hroom hafter

theorem Command.Catalogued.addUnit {owner : Option UnitId} {u : CatalogueUnit}
    (h : u.Made settings) : (Command.addUnit owner u).Catalogued settings := by
  rintro _ ⟨⟩
  exact h

/-- What a list of commands builds is patched if the catalogue makes all units in it. -/
theorem patched_of_build {commands : List (Command CatalogueUnit)}
    (h : build settings commands = some e) (hc : ∀ c ∈ commands, c.Catalogued settings) :
    Patched settings e :=
  build_induction (fun _ hnew => .start hnew)
    (fun c hmem _ _ hp hroom hafter => hp.step hroom (hc c hmem) hafter) h

/-! ## Moves -/

section Moves

variable {id : UnitId} {n : Node CatalogueUnit} {u : CatalogueUnit}

/-- A unit reacts, and becomes one that fits as well. -/
theorem fitted_reactQuietly (h : e.graph.Fitted settings) (hn : e.graph.node? id = some n)
    (hu : n.body = .device u) {script : Script CatalogueUnit}
    (hports : script.Ends fun v => v.ports = u.ports)
    (hfits : script.Ends (CatalogueUnit.Fits settings (e.graph.names.room? n.handle))) :
    (e.reactQuietly id u script).graph.Fitted settings := by
  obtain ⟨⟨hv, hroom⟩, hgraph, -⟩ := carryOut_spec id (Device.label u) script (hports.and hfits) e
  show ((carryOut id (Device.label u) script e).2.graph.modifyNode id _).Fitted settings
  rw [hgraph]
  refine h.modifyNode id fun m hm hfits => ?_
  rw [hn] at hm
  cases hm
  exact hfits.device hu hv hroom

theorem fitted_received (h : e.graph.Fitted settings) (hn : e.graph.node? id = some n)
    (hu : n.body = .device u) (inlet : Nat) (message : Message) :
    (e.received id u inlet message).graph.Fitted settings := by
  have hkindred := CatalogueUnit.kindred_receive u inlet message
    ((e.record (.received id inlet message)).surroundings id)
  refine fitted_reactQuietly (e := e.record (.received id inlet message)) h hn hu
    (hkindred.mono fun _ => CatalogueUnit.Kindred.ports) ?_
  exact CatalogueUnit.fits_receive ((h.nodes id n hn).unit u hu) inlet message _

/-- What happens outside of steps leaves units that fit. -/
theorem fitted_of_move (hm : Move (fun _ => False) e e') (h : e.graph.Fitted settings) :
    e'.graph.Fitted settings := by
  cases hm with
  | ripple hr =>
    cases hr with
    | report | collect => exact h
    | defer inlet message hn hu _ =>
      exact h.modifyNode _ fun m _ hfits => ⟨hfits.handle, hfits.ports, hfits.unit⟩
    | receive inlet message hn hu _ => exact fitted_received h hn hu inlet message
  | fall => exact h
  | emit outlet message hn hu =>
    refine fitted_reactQuietly h hn hu ?_ ?_
    · exact (CatalogueUnit.kindred_emit _ outlet message).mono fun _ => CatalogueUnit.Kindred.ports
    · exact CatalogueUnit.fits_emit ((h.nodes _ _ hn).unit _ hu) outlet message
  | pool pool => exact h.of_nodes rfl rfl
  | take ho | compute ho | receive _ _ ho | calm ho => exact ho.elim

theorem fitted_of_moves (hm : Moves (fun _ => False) e e') (h : e.graph.Fitted settings) :
    e'.graph.Fitted settings :=
  hm.keeps (P := fun e => e.graph.Fitted settings) (fun _ _ => fitted_of_move) h

end Moves
end Patchbay.Engine
