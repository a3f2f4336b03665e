import Patchbay.Engine.Delivery
import Patchbay.Proofs.Device
import Patchbay.Proofs.Graph.Shape
import Patchbay.Proofs.Names.Seats

/-!
# What delivering keeps

Delivering messages changes what units are, and what waits in them and in the queues; the graph keeps
its shape, its plan and its pool. `Works` is what a graph or an engine keeps while it works, up to
what becomes of its units (`R`) and of its pool (`Q`); while messages are delivered the pool stays as
it is (`works_deliver`, `works_handBack`).
-/

namespace Patchbay

variable {U : Type} [Device U] {R : U → U → Prop} {Q : Pool → Pool → Prop}

/-- Whether a node has become another by a law. -/
def Body.Becomes (R : U → U → Prop) : Body U → Body U → Prop
  | .device u, .device v => R u v
  | .subgraph, .subgraph => True
  | _, _ => False

omit [Device U] in
theorem Body.Becomes.refl (hR : ∀ u, R u u) (b : Body U) : b.Becomes R b := by
  cases b with
  | device u => exact hR u
  | subgraph => exact ⟨⟩

omit [Device U] in
theorem Body.Becomes.trans (hR : ∀ u v w, R u v → R v w → R u w) {a b c : Body U}
    (h : a.Becomes R b) (h' : b.Becomes R c) : a.Becomes R c := by
  cases a <;> cases b <;> cases c <;> simp only [Body.Becomes] at h h' ⊢
  exact hR _ _ _ h h'

/-- What a graph keeps while it works. -/
structure Graph.Works (R : U → U → Prop) (Q : Pool → Pool → Prop) (g g' : Graph U) : Prop where
  shape : g.SameShape g'
  bodies : ∀ {id n n'}, g.node? id = some n → g'.node? id = some n' → n.body.Becomes R n'.body
  names : g.names.SameSeats g'.names
  plan : g'.plan = g.plan
  pool : Q g.pool g'.pool

/-- What an engine keeps while it works. -/
structure Engine.Works (R : U → U → Prop) (Q : Pool → Pool → Prop) (e e' : Engine U) : Prop where
  settings : e'.settings = e.settings
  blockStart : e'.blockStart = e.blockStart
  hostInput : e'.hostInput = e.hostInput
  graph : e.graph.Works R Q e'.graph

namespace Graph.Works

omit [Device U] in
theorem refl (hR : ∀ u, R u u) (hQ : ∀ p, Q p p) (g : Graph U) : g.Works R Q g where
  shape := .refl g
  bodies hn hn' := by
    rw [hn] at hn'
    cases hn'
    exact .refl hR _
  names := .refl _
  plan := rfl
  pool := hQ _

omit [Device U] in
theorem trans (hR : ∀ u v w, R u v → R v w → R u w) (hQ : ∀ p q r, Q p q → Q q r → Q p r)
    {g g' g'' : Graph U} (h : g.Works R Q g') (h' : g'.Works R Q g'') : g.Works R Q g'' where
  shape := h.shape.trans h'.shape
  bodies {id n n''} hn hn'' := by
    have hc : g'.contains id = true := by
      rw [h.shape.contains]
      exact contains_iff.2 ⟨n, hn⟩
    obtain ⟨n', hn'⟩ := contains_iff.1 hc
    exact (h.bodies hn hn').trans hR (h'.bodies hn' hn'')
  names := h.names.trans h'.names
  plan := h'.plan.trans h.plan
  pool := hQ _ _ _ h.pool h'.pool

omit [Device U] in
theorem mono {Q' : Pool → Pool → Prop} (hQ : ∀ {p q}, Q p q → Q' p q) {g g' : Graph U}
    (h : g.Works R Q g') : g.Works R Q' g' := ⟨h.shape, h.bodies, h.names, h.plan, hQ h.pool⟩

end Graph.Works

namespace Engine

variable {e e' e'' : Engine U}

omit [Device U] in
theorem Works.trans (hR : ∀ u v w, R u v → R v w → R u w)
    (hQ : ∀ p q r, Q p q → Q q r → Q p r) (h : e.Works R Q e') (h' : e'.Works R Q e'') :
    e.Works R Q e'' where
  settings := h'.settings.trans h.settings
  blockStart := h'.blockStart.trans h.blockStart
  hostInput := h'.hostInput.trans h.hostInput
  graph := h.graph.trans hR hQ h'.graph

/-! ## Delivering -/

section Delivering

variable (hR : Law R)
include hR

/-- The engine may change anything outside of the graph. -/
theorem works_of_graph (hg : e'.graph = e.graph) (hs : e'.settings = e.settings)
    (hb : e'.blockStart = e.blockStart) (hi : e'.hostInput = e.hostInput) :
    e.Works R Eq e' := ⟨hs, hb, hi, hg ▸ .refl hR.refl (fun _ => rfl) _⟩

theorem works_refl (e : Engine U) : e.Works R Eq e := works_of_graph hR rfl rfl rfl rfl

theorem works_trans (h : e.Works R Eq e') (h' : e'.Works R Eq e'') : e.Works R Eq e'' :=
  h.trans hR.trans (fun _ _ _ h h' => h.trans h') h'

theorem works_foldl {α : Type} {f : Engine U → α → Engine U}
    (hf : ∀ (e : Engine U) a, e.Works R Eq (f e a)) (l : List α) (e : Engine U) :
    e.Works R Eq (l.foldl f e) := by
  induction l generalizing e with
  | nil => exact works_refl hR e
  | cons a l ih => exact works_trans hR (hf e a) (ih _)

/-- A unit is replaced by what it has become. -/
theorem works_modifyNode (e : Engine U) (id : UnitId) {f : Node U → Node U}
    (hshape : ∀ n, e.graph.node? id = some n → (f n).shape = n.shape)
    (hbody : ∀ n, e.graph.node? id = some n → n.body.Becomes R (f n).body) :
    e.Works R Eq (e.modifyNode id f) := by
  refine ⟨rfl, rfl, rfl, ⟨Graph.sameShape_modifyNode _ id hshape, fun {x n n'} hn hn' => ?_,
    .refl _, rfl, rfl⟩⟩
  · simp only [modifyNode, Graph.node?_modifyNode] at hn'
    split at hn'
    · next hx =>
      subst hx
      rw [hn] at hn'
      cases hn'
      exact hbody n hn
    · rw [hn] at hn'
      cases hn'
      exact .refl hR.refl _

/-- A unit reacts, and becomes what the script ends in. -/
theorem works_replace (e : Engine U) (id : UnitId) {n : Node U} {u u' : U}
    (hn : e.graph.node? id = some n) (hu : n.body = .device u) (hr : R u u') :
    e.Works R Eq (e.modifyNode id fun n => { n with body := .device u' }) := by
  refine works_modifyNode hR e id (fun n' hn' => ?_) fun n' hn' => ?_
  · rw [hn] at hn'
    cases hn'
    simp [Node.shape, Node.isSubgraph, hu]
  · rw [hn] at hn'
    cases hn'
    rw [hu]
    exact hr

omit hR in
omit [Device U] in
/-- A script changes the queue, the outbox and the journal only, and ends in what it may end in. -/
theorem carryOut_spec {P : U → Prop} (id : UnitId) (label : String) (script : Script U)
    (h : script.Ends P) (e : Engine U) :
    P (carryOut id label script e).1 ∧ (carryOut id label script e).2.graph = e.graph ∧
    (carryOut id label script e).2.settings = e.settings ∧
    (carryOut id label script e).2.blockStart = e.blockStart ∧
    (carryOut id label script e).2.hostInput = e.hostInput := by
  induction script generalizing e with
  | done u => exact ⟨h, rfl, rfl, rfl, rfl⟩
  | send outlet message next ih => exact ih h _
  | sendTo name message next ih => exact ih h _
  | schedule outlet message next ih => exact ih _ (h _) _
  | cancel outlet event next ih => exact ih _ (h _) _
  | report severity text next ih => exact ih h _

theorem works_react (e : Engine U) (id : UnitId) {n : Node U} {u : U} {script : Script U}
    (hn : e.graph.node? id = some n) (hu : n.body = .device u) (h : script.Ends (R u)) :
    e.Works R Eq (e.react id u script) := by
  obtain ⟨hr, hg, hs, hb, hi⟩ := carryOut_spec id (Device.label u) script h e
  exact works_trans hR (works_of_graph hR hg hs hb hi)
    (works_replace hR _ id (by rw [hg]; exact hn) hu hr)

theorem works_receive (e : Engine U) (id : UnitId) {n : Node U} {u : U} (inlet : Nat)
    (message : Message) (hn : e.graph.node? id = some n) (hu : n.body = .device u) :
    e.Works R Eq (e.receive id u inlet message) :=
  works_trans hR
    (works_of_graph hR rfl rfl rfl rfl : e.Works R Eq (e.record (.received id inlet message)))
    (works_react hR _ id hn hu (hR.receive ..))

theorem works_defer (e : Engine U) (id : UnitId) (inlet : Nat) (message : Message) :
    e.Works R Eq (e.defer id inlet message) := by
  have h : ∀ f : Node U → Node U, (∀ n, (f n).shape = n.shape) → (∀ n, (f n).body = n.body) →
      e.Works R Eq (e.modifyNode id f) := fun f hf hb =>
    works_modifyNode hR e id (fun n _ => hf n) fun n _ => hb n ▸ .refl hR.refl _
  refine works_trans hR (h _ ?_ ?_) (works_of_graph hR rfl rfl rfl rfl)
  · exact fun _ => rfl
  · exact fun _ => rfl

section Dispatch

variable {deliver : UnitId → Nat → Message → Engine U → Engine U}
  (hd : ∀ target inlet message (e : Engine U), e.Works R Eq (deliver target inlet message e))
include hd

theorem works_dispatch (out : Outgoing) (e : Engine U) : e.Works R Eq (dispatch deliver out e) := by
  unfold dispatch
  split
  · exact works_foldl hR (fun e c => hd ..) _ e
  · unfold sendNamed
    dsimp only
    refine works_trans hR ?_ (works_foldl hR (fun e id => hd ..) _ _)
    split
    · exact works_of_graph hR rfl rfl rfl rfl
    · split
      · exact works_of_graph hR rfl rfl rfl rfl
      · exact works_refl hR e

theorem works_flush (mark : Nat) (e : Engine U) : e.Works R Eq (flush deliver mark e) := by
  refine works_trans hR (works_foldl hR (fun e i => ?_) _ e) (works_of_graph hR rfl rfl rfl rfl)
  split
  · exact works_dispatch hR hd ..
  · exact works_refl hR e

end Dispatch

theorem works_deliver (levels : Nat) (target : UnitId) (inlet : Nat) (message : Message)
    (e : Engine U) : e.Works R Eq (deliver levels target inlet message e) := by
  induction levels generalizing target inlet message e with
  | zero => exact works_of_graph hR rfl rfl rfl rfl
  | succ levels ih =>
    unfold deliver
    split
    · exact works_refl hR e
    · next n hn =>
      split
      · exact works_foldl hR (fun e goal => ih ..) _ e
      · exact works_refl hR e
      · next u _ hu =>
        split
        · exact works_defer hR e target inlet message
        · exact works_trans hR (works_receive hR e target inlet message hn hu)
            (works_flush hR ih _ _)

theorem works_handBack (event : Event) (e : Engine U) : e.Works R Eq (handBack event e) := by
  unfold handBack
  split
  · exact works_refl hR e
  · next n hn =>
    dsimp only
    refine works_trans hR ?_ (works_flush hR (works_deliver hR _) _ _)
    split
    · exact works_of_graph hR rfl rfl rfl rfl
    · next u hu => exact works_react hR e _ hn hu (hR.emit ..)

end Delivering
end Engine
end Patchbay
