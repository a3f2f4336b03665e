import Patchbay.Proofs.Engine.Arrivals
import Patchbay.Proofs.Engine.Hosting
import Patchbay.Proofs.Graph.Flattening
import Patchbay.Proofs.Graph.Resembling

/-!
# Engines with other connections

Where a message is passed on at a node depends on the node alone, but for the connections that leave an
outlet (`meets`). Hence an engine with other connections (`withConnections`) does the same with a message
as the engine itself, apart from where it goes: that it `Shadows` the engine is kept by each thing that
may happen in a cascade.
-/

namespace Patchbay

variable {U : Type}

namespace Engine

/-! ## Where messages are passed on -/

/-- What messages that come to a node meet: a subgraph, a unit that stands for an outlet for messages, or
any other unit. -/
inductive Meets (n : Node U) : Prop
  | subgraph : n.isSubgraph = true → Meets n
  | outlet {owner : UnitId} {k : Nat} : n.isSubgraph = false → n.owner = some owner →
      n.port = some (.outlet, k) → n.ports.hasStreams = false → Meets n
  | unit : n.isSubgraph = false → (∀ owner k, n.owner = some owner → n.port = some (.outlet, k) →
      n.ports.hasStreams = true) → Meets n

theorem meets (n : Node U) : Meets n := by
  cases hsub : n.isSubgraph with
  | true => exact .subgraph hsub
  | false =>
    by_cases hout : ∃ owner k, n.owner = some owner ∧ n.port = some (.outlet, k) ∧
        n.ports.hasStreams = false
    · obtain ⟨owner, k, ho, hp, hs⟩ := hout
      exact .outlet hsub ho hp hs
    · refine .unit hsub fun owner k ho hp => ?_
      by_contra hs
      exact hout ⟨owner, k, ho, hp, Bool.eq_false_iff.2 hs⟩

section PassOn

variable (g : Graph U) {n : Node U} (x : UnitId) (inlet : Nat)

theorem passOn?_of_subgraph (h : n.isSubgraph = true) : passOn? g n x inlet =
    some ((g.portUnit? x .inlet inlet).toList.map fun port => (port, 0)) := if_pos h

theorem passOn?_of_outlet {owner : UnitId} {k : Nat} (h : n.isSubgraph = false)
    (ho : n.owner = some owner) (hp : n.port = some (.outlet, k)) (hs : n.ports.hasStreams = false) :
    passOn? g n x inlet = some (g.goals owner k) := by
  simp only [passOn?, h, ho, hp, hs, Bool.false_eq_true, if_false]
  rfl

theorem passOn?_of_unit (h : n.isSubgraph = false)
    (hstay : ∀ owner k, n.owner = some owner → n.port = some (.outlet, k) →
      n.ports.hasStreams = true) : passOn? g n x inlet = none := by
  rw [passOn?, if_neg (by simp [h])]
  split
  · next owner k ho hp => rw [if_pos (hstay owner k ho hp)]
  · rfl

end PassOn

/-! ## Engines with other connections -/

/-- The engine with other connections. What has happened so far is of no account. -/
def withConnections (e : Engine U) (connections : List Connection) (journal : Journal) : Engine U :=
  { e with graph := { e.graph with connections, plan := none }, journal }

section WithConnections

variable [Device U]

omit [Device U] in
theorem carryOut_withConnections (id : UnitId) (label : String) (script : Script U) (e : Engine U)
    (connections : List Connection) (journal : Journal) :
    carryOut id label script (e.withConnections connections journal) =
      ((carryOut id label script e).1, (carryOut id label script e).2.withConnections connections
        (journal ++ (script.happenings id label e.queue).toArray)) := by
  induction script generalizing e journal with
  | done u => simp [carryOut, Script.happenings]
  | send outlet message next ih => exact ih (e.post id (.outlet outlet) message) journal
  | sendTo name message next ih => exact ih (e.post id (.named name) message) journal
  | schedule outlet message next ih =>
    rw [Script.happenings, List.toArray_cons, ← Array.append_assoc, ← Array.push_eq_append]
    have h := ih (e.queue.insert id outlet message).1
    exact h (({ e with queue := (e.queue.insert id outlet message).2 }).record
      (.scheduled id (e.queue.insert id outlet message).1)) _
  | cancel outlet event next ih =>
    rw [Script.happenings, List.toArray_cons, ← Array.append_assoc, ← Array.push_eq_append]
    have h := ih (e.queue.find? id outlet event).isSome
    exact h (({ e with queue := e.queue.remove id outlet event }).record
      (.cancelled id event (e.queue.find? id outlet event).isSome)) _
  | report severity text next ih =>
    rw [Script.happenings, List.toArray_cons, ← Array.append_assoc, ← Array.push_eq_append]
    exact ih (e.record (.reported { severity, source := label, text })) _

/-- Units react alike, whatever the connections. -/
theorem reactQuietly_withConnections (e : Engine U) (connections : List Connection)
    (journal : Journal) (id : UnitId) (unit : U) (script : Script U) :
    (e.withConnections connections journal).reactQuietly id unit script =
      (e.reactQuietly id unit script).withConnections connections
        (journal ++ (script.happenings id (Device.label unit) e.queue).toArray) := by
  rw [reactQuietly, react, carryOut_withConnections]
  rfl

theorem received_withConnections (e : Engine U) (connections : List Connection) (journal : Journal)
    (id : UnitId) (unit : U) (inlet : Nat) (message : Message) :
    (e.withConnections connections journal).received id unit inlet message =
      (e.received id unit inlet message).withConnections connections
        (journal.push (.received id inlet message) ++ ((Device.receive unit inlet message
          (e.surroundings id)).happenings id (Device.label unit) e.queue).toArray) :=
  reactQuietly_withConnections (e.record (.received id inlet message)) connections _ id unit _

end WithConnections

/-- That an engine is at work on a graph, and another does as it does with other connections. -/
structure Shadows (f : CatalogueUnit → U) (g : Graph U) (connections : List Connection)
    (e e' : Engine U) : Prop where
  works : g.Works (Stays f) Eq e.graph
  same : ∃ journal, e' = e.withConnections connections journal

section Shadows

variable {f : CatalogueUnit → U} {g : Graph U} {connections : List Connection} {e e' : Engine U}
  {x : UnitId} {n : Node U} (hs : Shadows f g connections e e')
include hs

/-- The nodes are the same. -/
theorem Shadows.node? {n? : Option (Node U)} (hn : e.graph.node? x = n?) : e'.graph.node? x = n? := by
  obtain ⟨journal, rfl⟩ := hs.same
  exact hn

theorem Shadows.portUnit? (x : UnitId) (side : Side) (k : Nat) :
    e.graph.portUnit? x side k = g.portUnit? x side k ∧
      e'.graph.portUnit? x side k = g.portUnit? x side k := by
  have hport := hs.works.shape.portUnit? x side k
  obtain ⟨journal, rfl⟩ := hs.same
  exact ⟨hport, hport⟩

theorem Shadows.names : e'.graph.names = e.graph.names := by
  obtain ⟨journal, rfl⟩ := hs.same
  rfl

/-- A node is where it was and what it was. -/
theorem Shadows.views (hn : e.graph.node? x = some n) : g.isSubgraph x = n.isSubgraph ∧
    g.owner? x = n.owner ∧ g.port? x = n.port ∧ g.ports x = n.ports := by
  have hshape := hs.works.shape
  rw [← hshape.isSubgraph, ← hshape.owner?, ← hshape.port?, ← hshape.ports, Graph.isSubgraph,
    Graph.owner?, Graph.port?, Graph.ports, hn]
  exact ⟨rfl, rfl, rfl, rfl⟩

theorem Shadows.record (happening : Happening) :
    Shadows f g connections (e.record happening) (e'.record happening) := by
  obtain ⟨journal, rfl⟩ := hs.same
  exact ⟨hs.works, journal.push happening, rfl⟩

theorem Shadows.collect (name : Symbol) (message : Message) : Shadows f g connections
    ({ e with external := e.external.push (name, message) }.record (.collected name message))
    ({ e' with external := e'.external.push (name, message) }.record (.collected name message)) := by
  obtain ⟨journal, rfl⟩ := hs.same
  exact ⟨hs.works, journal.push (.collected name message), rfl⟩

variable [Device U] (hf : Faithful f)
include hf

theorem Shadows.defer (x : UnitId) (inlet : Nat) (message : Message) :
    Shadows f g connections (e.defer x inlet message) (e'.defer x inlet message) := by
  have hlaw := law_stays hf
  obtain ⟨journal, rfl⟩ := hs.same
  exact ⟨hs.works.trans hlaw.trans (fun _ _ _ h h' => h.trans h') (works_defer hlaw e x inlet message).graph,
    journal.push (.deferred x inlet message), rfl⟩

/-- A unit reacts alike in both engines. -/
theorem Shadows.react {unit : U} (hn : e.graph.node? x = some n) (hu : n.body = .device unit)
    {script : Script U} (hends : script.Ends (Stays f unit)) :
    Shadows f g connections (e.reactQuietly x unit script) (e'.reactQuietly x unit script) := by
  have hlaw := law_stays hf
  obtain ⟨journal, rfl⟩ := hs.same
  refine ⟨hs.works.trans hlaw.trans (fun _ _ _ h h' => h.trans h')
    (works_reactQuietly hlaw e hn hu hends).graph, _, reactQuietly_withConnections ..⟩

theorem Shadows.receive {unit : U} (hn : e.graph.node? x = some n) (hu : n.body = .device unit)
    (inlet : Nat) (message : Message) :
    e'.answers x unit inlet message = e.answers x unit inlet message ∧
      e'.reception x unit inlet message = e.reception x unit inlet message ∧
      Shadows f g connections (e.received x unit inlet message) (e'.received x unit inlet message) := by
  have hlaw := law_stays hf
  obtain ⟨journal, rfl⟩ := hs.same
  exact ⟨rfl, rfl, hs.works.trans hlaw.trans (fun _ _ _ h h' => h.trans h')
    (works_received hlaw e inlet message hn hu).graph, _, received_withConnections ..⟩

end Shadows
end Engine
end Patchbay
