import Patchbay.Proofs.Engine.Receiving
import Patchbay.Proofs.Graph.Representation

/-!
# Graphs that commands lead to

Whatever commands an engine has been given, and whichever of them were refused, all that its graph
lists agrees (`represents_of_reachable`). Later commands add ports to subgraphs, but no node that is
still there loses one, or has one changed.
-/

namespace Patchbay

open Relation

variable {U : Type} [Device U]

namespace Graph

variable {g g' : Graph U}

omit [Device U] in
theorem SameShape.fronted (h : g.SameShape g') (hf : g.Fronted) : g'.Fronted ∧ g.Grows g' :=
  ⟨hf.of_shape h.shape, .of_shape h.size fun x _ => h.shape x⟩

/-- Planning leaves all nodes and connections as they are. -/
theorem sameShape_compile {plan : Plan} (h : g.compile = .ok (plan, g')) : g.SameShape g' := by
  rcases compile_cases h with ⟨-, rfl⟩ | ⟨-, d, -, -, rfl⟩
  · exact .refl _
  · exact ⟨rfl, fun _ => rfl, rfl⟩

end Graph

namespace Engine

variable {made : Body U → Prop} {command : Command U} {e e' : Engine U}

theorem fronted_of_edited {g g' : Graph U} (h : Edited made g g') (hg : g.Sound) (hf : g.Fronted) :
    g'.Fronted ∧ g.Grows g' := by
  cases h with
  | added _ h => exact Edit.fronted_add hf hg h
  | connected h => exact Edit.fronted_connect hf h
  | disconnected h => exact Edit.fronted_disconnect hf h

/-- A block leaves all nodes and connections as they are. -/
theorem sameShape_process {input samples : Samples} {outLength : Nat}
    (h : process input outLength e = .ok samples e') : e.graph.SameShape e'.graph := by
  obtain ⟨drained, plan, planned, ended, hdrain, hplan, hplay, rfl⟩ := process_eq_ok h
  obtain ⟨g, hg, rfl⟩ := compile_eq_ok.1 hplan
  have hopened := (works_openBlock .any input e).shape
  have hdrained := (works_of_moves .any (moves_drain (fun _ => True) hdrain)).graph.shape
  have hplayed := (works_of_moves .any (moves_play hplay)).graph.shape
  exact ((hopened.trans hdrained).trans (Graph.sameShape_compile hg)).trans hplayed

/-- What a command comes to leaves the ports of subgraphs to the units that stand for them. -/
theorem fronted_of_deed (h : Deed command e e') (hg : e.graph.Sound) (hf : e.graph.Fronted) :
    e'.graph.Fronted ∧ e.graph.Grows e'.graph := by
  have hsame : e.graph.SameShape e'.graph → e'.graph.Fronted ∧ e.graph.Grows e'.graph :=
    fun hs => hs.fronted hf
  cases h with
  | edited h =>
    obtain ⟨hf', hgrows⟩ := fronted_of_edited h hg hf
    exact ⟨hf'.of_shape fun _ => rfl, hgrows.trans (.of_shape rfl fun _ _ => rfl)⟩
  | removed h =>
    obtain ⟨hf', hgrows⟩ := Edit.fronted_remove hf hg h
    exact ⟨hf'.of_shape fun _ => rfl, hgrows.trans (.of_shape rfl fun _ _ => rfl)⟩
  | planned h =>
    obtain ⟨g, hcompile, rfl⟩ := compile_eq_ok.1 h
    exact hsame (Graph.sameShape_compile hcompile)
  | played _ h => exact hsame (sameShape_process h)
  | idle | scheduled | cancelled | sent | unheard | taken => exact hsame (.refl _)
  | declined | listened => exact hsame ⟨rfl, fun _ => rfl, rfl⟩

theorem fronted_of_reachable {settings : Settings} (h : Reachable settings e) :
    e.graph.Fronted := by
  induction h with
  | start hnew =>
    rw [graph_of_new hnew]
    exact Graph.fronted_empty _
  | step hreach hafter ih =>
    exact (fronted_of_deed (deed_of_after hafter) (kept_of_reachable .any hreach).sound ih).1

/-- Within a block the nodes and connections are those that commands have led to. -/
theorem exists_sameShape_of_underway {settings : Settings} (h : Underway settings e) :
    ∃ e₀ : Engine U, Reachable settings e₀ ∧ e₀.graph.SameShape e.graph := by
  have hlater : ∀ {e e' : Engine U}, (∃ e₀ : Engine U, Reachable settings e₀ ∧ e₀.graph.SameShape e.graph) →
      e.graph.SameShape e'.graph → ∃ e₀ : Engine U, Reachable settings e₀ ∧ e₀.graph.SameShape e'.graph :=
    fun ⟨e₀, hreach, hshape⟩ hshape' => ⟨e₀, hreach, hshape.trans hshape'⟩
  induction h with
  | idle hreach => exact ⟨_, hreach, .refl _⟩
  | opened input hreach => exact ⟨_, hreach, (works_openBlock .any input _).shape⟩
  | drained _ hone ih => exact hlater ih (works_drainOne? .any hone).graph.shape
  | planned _ hplan ih =>
    obtain ⟨g, hg, rfl⟩ := compile_eq_ok.1 hplan
    exact hlater ih (Graph.sameShape_compile hg)
  | stepped _ hstep ih => exact hlater ih (runStep_works .any _ _ hstep).graph.shape

/-- The engines that further commands lead to. -/
abbrev Leads : Engine U → Engine U → Prop := ReflTransGen fun e e' => ∃ c : Command U, e.after c = some e'

theorem Leads.reachable {settings : Settings} (h : Leads e e') (hreach : Reachable settings e) :
    Reachable settings e' := by
  induction h with
  | refl => exact hreach
  | tail _ hafter ih =>
    obtain ⟨c, hafter⟩ := hafter
    exact ih.step hafter

end Engine
end Patchbay
