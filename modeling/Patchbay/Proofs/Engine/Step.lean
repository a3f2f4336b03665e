import Patchbay.Proofs.Engine.Buffers
import Patchbay.Proofs.Engine.Delivery

/-!
# Computing a step

A unit computes its block piece by piece, and receives messages in between. All pieces read the same
inputs (`computeBlock_eq`), for delivering leaves the buffers alone. What the unit has written is
then in its buffers, and all others are as they were (`computeBlock_spec`).
-/

namespace Patchbay

variable {U : Type} [Device U] {R : U → U → Prop}

/-- The faults that a unit may bring about: those of its own, or that its messages never end. -/
def UnitFault (f : Fault) (_ : Engine U) : Prop :=
  f = .endless ∨ ∃ (u : U) (ins : Inputs) (outs : Outputs) (first last : Nat),
    Device.process u ins outs first last = .error f

namespace Engine

variable {e e' : Engine U}

theorem sameSeats_writeNamed (names : Names) (handle : Option Handle) (outs : Outputs) :
    names.SameSeats (writeNamed names handle outs) := by
  unfold writeNamed
  split
  · exact Names.sameSeats_setBus ..
  · exact Names.sameSeats_setStore ..
  · exact .refl _

omit [Device U] in
/-- What a unit reads depends on the pool, the host and the settings only. -/
theorem inputs_eq (h : e.Works R Eq e') (binding : Binding) : e'.inputs binding = e.inputs binding := by
  simp [inputs, h.settings, h.hostInput, h.graph.pool]

/-- How far a unit has got without a change of the buffers in the pool. -/
structure Gets (R : U → U → Prop) (p : Progress) (e : Engine U) (p' : Progress) (e' : Engine U) :
    Prop where
  works : e.Works R Eq e'
  sizes : Steady U → p'.outlets.map Array.size = p.outlets.map Array.size

section Pieces

variable (hR : Law R)
include hR

theorem Gets.refl (p : Progress) (e : Engine U) : Gets R p e p e := ⟨works_refl hR e, fun _ => rfl⟩

theorem Gets.trans {p p' p'' : Progress} {e e' e'' : Engine U} (h : Gets R p e p' e')
    (h' : Gets R p' e' p'' e'') : Gets R p e p'' e'' :=
  ⟨works_trans hR h.works h'.works, fun hs => (h'.sizes hs).trans (h.sizes hs)⟩

theorem works_afterCompute (e : Engine U) (id : UnitId) {n : Node U} {u u' : U} (outs : Outputs)
    (hn : e.graph.node? id = some n) (hu : n.body = .device u) (hr : R u u') :
    e.Works R Eq (e.afterCompute id n.handle u' outs) := by
  let e₁ : Engine U := { e with
    graph := { e.graph with names := writeNamed e.graph.names n.handle outs }
    hostOutput := outs.hostOutput }
  have h₁ : e.Works R Eq e₁ := by
    refine ⟨rfl, rfl, rfl, ⟨⟨rfl, fun _ => rfl, rfl⟩, fun hn hn' => ?_,
      sameSeats_writeNamed .., rfl, rfl⟩⟩
    have := hn.symm.trans hn'
    cases this
    exact .refl hR.refl _
  exact works_trans hR h₁ (works_replace hR e₁ id hn hu hr)

omit hR in
/-- A piece, case by case. -/
theorem compute_eq (read : Engine U → Inputs) (id : UnitId) (stop : Nat) (p : Progress)
    (e : Engine U) :
    compute read id stop p e =
      match e.graph.node? id with
      | none => .ok p e
      | some n =>
        match n.body with
        | .subgraph => .ok { p with last := stop } e
        | .device unit =>
          match Device.process unit (read (e.record (.computed id p.last stop)))
              ((e.record (.computed id p.last stop)).outputs n p.outlets) p.last stop with
          | .error f => .error f (e.record (.computed id p.last stop))
          | .ok (unit, outs) => .ok { outlets := outs.outlets, last := stop }
              ((e.record (.computed id p.last stop)).afterCompute id n.handle unit outs) := by
  unfold compute
  rw [run_get_bind]
  cases hn : e.graph.node? id with
  | none => rfl
  | some n =>
    cases hb : n.body with
    | subgraph => simp only [hb, run_pure]
    | device u =>
      simp only [hb, run_modify_bind, run_get_bind]
      generalize Device.process u _ _ _ _ = r
      cases r with
      | error f => rfl
      | ok r => rfl

/-- Computing a piece changes the unit and what it writes. -/
theorem compute_spec (read : Engine U → Inputs) (id : UnitId) (stop : Nat) (p : Progress)
    (e : Engine U) : Yields UnitFault (Gets R p e) (compute read id stop p e) := by
  rw [compute_eq]
  split
  · exact .refl hR p e
  · next n hn =>
    split
    · exact ⟨works_refl hR e, fun _ => rfl⟩
    · next u hu =>
      split
      · next f hf => exact .inr ⟨u, _, _, _, _, hf⟩
      · next u' outs hok =>
        have h₁ : e.Works R Eq (e.record (.computed id p.last stop)) :=
          works_of_graph hR rfl rfl rfl rfl
        exact ⟨works_trans hR h₁ (works_afterCompute hR _ id outs hn hu (hR.process hok)),
          fun hs => hs.sizes hok⟩

/-- A piece depends only on what is read when it is computed. -/
theorem compute_congr {read read' : Engine U → Inputs} (id : UnitId) (stop : Nat) (p : Progress)
    (e : Engine U) (h : ∀ e', e.Works R Eq e' → read e' = read' e') :
    compute read id stop p e = compute read' id stop p e := by
  rw [compute_eq, compute_eq, h (e.record _) (works_of_graph hR rfl rfl rfl rfl)]

/-- The message that is received next is taken away from the unit. -/
theorem works_nextPending? {id : UnitId} {next : Pending} (h : e.nextPending? id = some (next, e')) :
    e.Works R Eq e' := by
  unfold nextPending? at h
  split at h
  · cases h
    exact works_modifyNode hR e id (fun _ _ => rfl) fun _ _ => .refl hR.refl _
  · cases h

theorem works_receivePending (e : Engine U) (id : UnitId) (next : Pending) :
    e.Works R Eq (e.receivePending id next) := by
  unfold receivePending
  split
  · next u h =>
    obtain ⟨n, hn, hu⟩ := Option.map_eq_some_iff.1 h
    exact works_trans hR (works_receive hR e id _ _ hn hu) (works_flush hR (works_deliver hR _) _ _)
  · exact works_refl hR e

theorem works_calm (e : Engine U) (id : UnitId) :
    e.Works R Eq (e.modifyNode id fun n => { n with pace := .free }) :=
  works_modifyNode hR e id (fun _ _ => rfl) fun _ _ => .refl hR.refl _

theorem computeUpTo_spec (read : Engine U → Inputs) (id : UnitId) (stop : Nat) (p : Progress)
    (e : Engine U) : Yields UnitFault (Gets R p e) (computeUpTo read id stop p e) := by
  unfold computeUpTo
  split
  · exact compute_spec hR read id stop p e
  · exact Gets.refl hR p e

theorem computeUpTo_congr {read read' : Engine U → Inputs} (id : UnitId) (stop : Nat) (p : Progress)
    (e : Engine U) (h : ∀ e', e.Works R Eq e' → read e' = read' e') :
    computeUpTo read id stop p e = computeUpTo read' id stop p e := by
  unfold computeUpTo
  split
  · exact compute_congr hR id stop p e h
  · rfl

theorem computePieces_spec (read : Engine U → Inputs) (id : UnitId) (rounds : Nat) (p : Progress)
    (e : Engine U) : Yields UnitFault (Gets R p e) (computePieces read id rounds p e) := by
  induction rounds generalizing p e with
  | zero => exact .inl rfl
  | succ rounds ih =>
    rw [computePieces, run_get_bind]
    cases hnext : e.nextPending? id with
    | none => exact Gets.refl hR p e
    | some r =>
      obtain ⟨next, e₁⟩ := r
      dsimp only
      rw [run_set_bind]
      have h₁ : Gets R p e p e₁ := ⟨works_nextPending? hR hnext, fun _ => rfl⟩
      refine (computeUpTo_spec hR read id _ p e₁).bind fun p₂ e₂ h₂ => ?_
      rw [run_modify_bind]
      have h₃ : Gets R p₂ e₂ p₂ (e₂.receivePending id next) :=
        ⟨works_receivePending hR e₂ id next, fun _ => rfl⟩
      exact (ih p₂ _).mono fun p₄ e₄ h₄ => ((h₁.trans hR h₂).trans hR h₃).trans hR h₄

/-- All pieces read the same if what is read is the same in every engine on the way. -/
theorem computePieces_congr {read read' : Engine U → Inputs} (id : UnitId) (rounds : Nat)
    (p : Progress) (e : Engine U) (h : ∀ e', e.Works R Eq e' → read e' = read' e') :
    computePieces read id rounds p e = computePieces read' id rounds p e := by
  induction rounds generalizing p e with
  | zero => rfl
  | succ rounds ih =>
    rw [computePieces, computePieces, run_get_bind, run_get_bind]
    cases hnext : e.nextPending? id with
    | none => rfl
    | some r =>
      obtain ⟨next, e₁⟩ := r
      dsimp only
      rw [run_set_bind, run_set_bind]
      have h₁ := works_nextPending? hR hnext
      refine run_bind_congr e₁ ?_ fun p₂ e₂ h₂ => ?_
      · exact computeUpTo_congr hR id _ p e₁ fun e₂ h₂ => h e₂ (works_trans hR h₁ h₂)
      · have h₂ := ((computeUpTo_spec hR read id _ p e₁).of_ok h₂).works
        rw [run_modify_bind, run_modify_bind]
        refine ih p₂ _ fun e₃ h₃ => h e₃ ?_
        exact works_trans hR (works_trans hR (works_trans hR h₁ h₂)
          (works_receivePending hR e₂ id next)) h₃

theorem computeSamples_spec (read : Engine U → Inputs) (id : UnitId) (n : Node U) (p : Progress)
    (e : Engine U) : Yields UnitFault (Gets R p e) (computeSamples read id n p e) := by
  rw [computeSamples, run_get_bind]
  split
  · exact compute_spec hR read id _ p e
  · refine (computePieces_spec hR read id _ p e).bind fun p₁ e₁ h₁ => ?_
    refine (computeUpTo_spec hR read id _ p₁ e₁).bind fun p₂ e₂ h₂ => ?_
    exact (h₁.trans hR h₂).trans hR ⟨works_calm hR e₂ id, fun _ => rfl⟩

theorem computeSamples_congr {read read' : Engine U → Inputs} (id : UnitId) (n : Node U)
    (p : Progress) (e : Engine U) (h : ∀ e', e.Works R Eq e' → read e' = read' e') :
    computeSamples read id n p e = computeSamples read' id n p e := by
  rw [computeSamples, computeSamples, run_get_bind, run_get_bind]
  split
  · exact compute_congr hR id _ p e h
  · refine run_bind_congr e (computePieces_congr hR id _ p e h) fun p₁ e₁ h₁ => ?_
    have h₁ := ((computePieces_spec hR read id _ p e).of_ok h₁).works
    refine run_bind_congr e₁ ?_ fun _ _ _ => rfl
    exact computeUpTo_congr hR id _ p₁ e₁ fun e₂ h₂ => h e₂ (works_trans hR h₁ h₂)

end Pieces

/-! ## The step of a unit -/

/-- The engine with another pool. -/
def withPool (e : Engine U) (pool : Pool) : Engine U := { e with graph := { e.graph with pool } }

omit [Device U] in
theorem onPool_eq {α : Type} (f : Pool → Except Fault (α × Pool)) (e : Engine U) :
    onPool f e = match f e.graph.pool with
      | .ok (a, pool) => .ok a (e.withPool pool)
      | .error how => .error how e := by
  rw [onPool, run_get_bind, run_bind]
  cases f e.graph.pool with
  | error how => rfl
  | ok r => rfl

omit [Device U] in
theorem works_withPool (hR : ∀ u, R u u) {Q : Pool → Pool → Prop} (e : Engine U) {pool : Pool}
    (hQ : Q e.graph.pool pool) : e.Works R Q (e.withPool pool) := by
  refine ⟨rfl, rfl, rfl, ⟨⟨rfl, fun _ => rfl, rfl⟩, fun hn hn' => ?_, .refl _, rfl, hQ⟩⟩
  have := hn.symm.trans hn'
  cases this
  exact .refl hR _

omit [Device U] in
theorem Works.sameBooks (h : e.Works R Eq e') : e.Works R Pool.SameBooks e' :=
  ⟨h.settings, h.blockStart, h.hostInput, h.graph.mono .of_eq⟩

omit [Device U] in
theorem Works.trans_sameBooks (hR : ∀ u v w, R u v → R v w → R u w) {e e' e'' : Engine U}
    (h : e.Works R Pool.SameBooks e') (h' : e'.Works R Pool.SameBooks e'') :
    e.Works R Pool.SameBooks e'' := h.trans hR (fun _ _ _ h h' => h.trans h') h'

/-- The step of a unit, if it can take its buffers. -/
theorem computeBlock_eq_bind {n : Node U} (read : Engine U → Inputs) (id : UnitId)
    (binding : Binding) (hn : e.graph.node? id = some n) {outlets : Array Samples} {pool : Pool}
    (htake : takeOutlets binding e.graph.pool = .ok (outlets, pool)) :
    computeBlock read id binding e = (computeSamples read id n { outlets } >>= fun p => do
      onPool fun pool => do return ((), ← returnOutlets binding p.outlets pool)
      return p.outlets) (e.withPool pool) := by
  rw [computeBlock, run_get_bind]
  simp only [hn]
  rw [run_bind, onPool_eq, htake]

/-- Every piece of a unit's step reads the inputs that there are once the unit has taken its
buffers. -/
theorem computeBlock_reads (hR : Law R) (id : UnitId) (binding : Binding) {outlets : Array Samples}
    {pool : Pool} (htake : takeOutlets binding e.graph.pool = .ok (outlets, pool)) :
    computeBlock (·.inputs binding) id binding e =
      computeBlock (fun _ => (e.withPool pool).inputs binding) id binding e := by
  cases hn : e.graph.node? id with
  | none =>
    rw [computeBlock, computeBlock, run_get_bind, run_get_bind]
    simp only [hn]
  | some n =>
    rw [computeBlock_eq_bind _ id binding hn htake, computeBlock_eq_bind _ id binding hn htake]
    refine run_bind_congr _ (computeSamples_congr hR id n _ _ fun e' h => ?_) fun _ _ _ => rfl
    exact inputs_eq h binding

/-- Whatever a unit's step does, the graph goes on as before. -/
theorem computeBlock_works (hR : Law R) (read : Engine U → Inputs) (id : UnitId)
    (binding : Binding) {outs : Array Samples} (h : computeBlock read id binding e = .ok outs e') :
    e.Works R Pool.SameBooks e' := by
  cases hn : e.graph.node? id with
  | none =>
    rw [computeBlock, run_get_bind] at h
    simp only [hn] at h
    cases h
    exact (works_refl hR e).sameBooks
  | some n =>
    cases htake : takeOutlets binding e.graph.pool with
    | error f =>
      rw [computeBlock, run_get_bind] at h
      simp only [hn] at h
      rw [run_bind, onPool_eq, htake] at h
      cases h
    | ok r =>
      obtain ⟨outlets, pool⟩ := r
      rw [computeBlock_eq_bind read id binding hn htake] at h
      obtain ⟨p, e₁, hp, h⟩ := run_bind_eq_ok.1 h
      have h₁ := works_withPool (R := R) hR.refl e (takeOutlets_keeps htake)
      have h₂ := ((computeSamples_spec hR read id n _ _).of_ok hp).works.sameBooks
      obtain ⟨_, e₂, hret, h⟩ := run_bind_eq_ok.1 h
      cases h
      rw [onPool_eq] at hret
      cases hpool : returnOutlets binding p.outlets e₁.graph.pool with
      | error f =>
        rw [hpool] at hret
        cases hret
      | ok pool₂ =>
        rw [hpool] at hret
        cases hret
        have h₃ := works_withPool (R := R) hR.refl e₁ (returnOutlets_keeps hpool)
        exact (h₁.trans_sameBooks hR.trans h₂).trans_sameBooks hR.trans h₃

section Buffers

variable {size : Nat} {m : Memory} {binding : Binding} {id : UnitId}

omit [Device U] in
/-- What a unit reads at an inlet is what is in the buffer there, for the unit writes another. -/
theorem inlet_eq (h : e.graph.pool.Stores size m) (hb : Apart binding e.graph.pool.size)
    {outlets : Array Samples} {pool : Pool}
    (htake : takeOutlets binding e.graph.pool = .ok (outlets, pool)) {i : Nat} {buffer : BufferId}
    (hi : (binding.inlets[i]?).getD .zero = buffer) (hbelow : buffer.Below e.graph.pool.size)
    (hnot : ∀ o, ¬ binding.Owns o buffer) :
    ((e.withPool pool).inputs binding).inlet i = .ok (m.read size buffer) := by
  obtain ⟨outs, q, heq, -, -, hother⟩ := takeOutlets_spec h hb
  rw [htake] at heq
  cases heq
  show pool.get ((binding.inlets[i]?).getD .zero) = _
  rw [hi]
  cases buffer with
  | zero => simp [Pool.get, (takeOutlets_keeps htake).blockSize, h.blockSize]
  | pooled j => simp [Pool.get, hother j hnot, h.buffers j (hbelow j rfl)]

/-- The step of a unit meets no fault but those that computing its samples meets. It writes the buffers
at the unit's own outlets, and no others. -/
theorem computeBlock_yields (hs : Steady U) (h : e.graph.pool.Stores size m)
    (hb : Apart binding e.graph.pool.size) {n : Node U} (hn : e.graph.node? id = some n)
    (read : Engine U → Inputs) {faulty : Fault → Engine U → Prop}
    {P : Array Samples → Engine U → Prop}
    (hP : ∀ outs (e : Engine U) pool, P outs e → P outs (e.withPool pool))
    (hsamples : ∀ outlets pool, takeOutlets binding e.graph.pool = .ok (outlets, pool) →
      Yields faulty (fun p e' => P p.outlets e')
        (computeSamples read id n { outlets } (e.withPool pool))) :
    Yields faulty
      (fun outs e' => (e.Works Alike Pool.SameBooks e' ∧
        e'.graph.pool.Stores size (m.write binding fun o => (outs[o]?).getD #[])) ∧ P outs e')
      (computeBlock read id binding e) := by
  obtain ⟨outlets, pool, htake, -, houts, hother⟩ := takeOutlets_spec h hb
  have hbooks := takeOutlets_keeps htake
  rw [computeBlock_eq_bind read id binding hn htake]
  refine ((hsamples outlets pool htake).and
    fun p e₁ => (computeSamples_spec hs.alike read id n _ _).of_ok).bind ?_
  rintro p e₁ ⟨hPe, hp⟩
  have hpool : e₁.graph.pool = pool := hp.works.graph.pool.symm
  have hsizes := hp.sizes hs
  dsimp only at hsizes
  have houts' : ∀ o buffer, binding.Owns o buffer →
      ∃ xs : Samples, p.outlets[o]? = some xs ∧ xs.size = size := by
    intro o buffer ho
    obtain ⟨xs, hxs, hlen⟩ := houts o buffer ho
    have := congrArg (·[o]?) hsizes
    simp only [Array.getElem?_map, hxs, Option.map_some, hlen] at this
    obtain ⟨ys, hys, hlen'⟩ := Option.map_eq_some_iff.1 this
    exact ⟨ys, hys, hlen'⟩
  obtain ⟨q, hret, hstores⟩ := returnOutlets_spec (p := pool) (b := binding) (m := m)
    (by rw [hbooks.size]; exact hb) (hbooks.blockSize.trans h.blockSize) houts' fun i hi hnot => by
      rw [hbooks.size] at hi
      exact ⟨(hother i hnot).trans (h.buffers i hi), h.sizes i hi⟩
  rw [run_bind, onPool_eq, hpool, hret]
  refine ⟨⟨?_, hstores⟩, hP _ e₁ q hPe⟩
  have h₁ := works_withPool (R := Alike) hs.alike.refl e hbooks
  have h₂ := works_withPool (R := Alike) hs.alike.refl e₁
    (hpool ▸ returnOutlets_keeps hret : Pool.SameBooks e₁.graph.pool q)
  exact (h₁.trans_sameBooks hs.alike.trans hp.works.sameBooks).trans_sameBooks hs.alike.trans h₂

/-- The step of a unit meets no fault but the unit's own. -/
theorem computeBlock_spec (hs : Steady U) (h : e.graph.pool.Stores size m)
    (hb : Apart binding e.graph.pool.size) (hc : e.graph.contains id = true)
    (read : Engine U → Inputs) :
    Yields UnitFault
      (fun outs e' => e.Works Alike Pool.SameBooks e' ∧
        e'.graph.pool.Stores size (m.write binding fun o => (outs[o]?).getD #[]))
      (computeBlock read id binding e) := by
  obtain ⟨n, hn⟩ := Graph.contains_iff.1 hc
  refine (computeBlock_yields hs h hb hn read (P := fun _ _ => True) (fun _ _ _ h => h) ?_).mono
    fun _ _ h => h.1
  exact fun outlets pool _ => (computeSamples_spec hs.alike read id n _ _).mono fun _ _ _ => ⟨⟩

end Buffers

/-! ## Steps -/

/-- Whatever a step does, the graph goes on as before. -/
theorem runStep_works (hR : Law R) (plan : Plan) (s : Step) (h : runStep plan s e = .ok ⟨⟩ e') :
    e.Works R Pool.SameBooks e' := by
  cases s with
  | unit id =>
    obtain ⟨outs, e₁, hrun, h⟩ := run_bind_eq_ok.1 h
    cases h
    exact computeBlock_works hR _ id _ hrun
  | sum left right out =>
    rw [runStep, onPool_eq] at h
    cases hpool : e.graph.pool.sumInto left right out with
    | error f =>
      rw [hpool] at h
      cases h
    | ok q =>
      rw [hpool] at h
      cases h
      exact works_withPool hR.refl e (Pool.sumInto_keeps hpool)

end Engine
end Patchbay
