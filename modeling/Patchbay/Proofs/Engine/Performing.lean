import Patchbay.Proofs.Catalogue.Computing
import Patchbay.Proofs.Catalogue.Timing
import Patchbay.Proofs.Engine.Arrivals
import Patchbay.Proofs.Engine.Patched
import Patchbay.Proofs.Engine.Playback

/-!
# Plans are performed without faults

When a plan is played on a graph whose units fit, each step finds everything as large as it has to be,
and leaves it so. A unit takes its buffers, computes piece by piece, and receives in between what has
waited for its step (`sweeps_atWork`); so no step meets a fault (`play_performs`).
-/

namespace Patchbay

/-! ## Units and their buffers -/

namespace Graph

variable {U : Type} [Device U] {g g' : Graph U} {x : UnitId} {size : Nat} {b : Binding}

/-- What a unit is bound to does not depend on what it has become. -/
theorem Fits.alike {u v : U} (h : g.Fits x u size b) (hports : g'.ports x = g.ports x)
    (huv : Alike u v) : g'.Fits x v size b where
  inlets := h.inlets.trans (congrArg Ports.streamInlets hports).symm
  outlets := h.outlets.trans (congrArg Ports.streamOutlets hports).symm
  sources o ho := by
    rw [huv.source]
    exact h.sources o (hports ▸ ho)
  read := h.read
  own := h.own
  once := h.once
  pooled o ho hsource := h.pooled o (hports ▸ ho) (huv.source o ▸ hsource)
  forward o ho j hsource := h.forward o (hports ▸ ho) j (huv.source o ▸ hsource)

/-- At every inlet a unit reads a buffer of the pool that it does not write, or silence. -/
theorem Fits.exists_buffer {u : U} (h : g.Fits x u size b) (k : Nat) :
    ∃ buffer, (b.inlets[k]?).getD .zero = buffer ∧ buffer.Below size ∧ ∀ o, ¬ b.Owns o buffer := by
  cases hk : b.inlets[k]? with
  | none => exact ⟨.zero, rfl, fun _ h => (by cases h), fun o ho => (h.own o _ ho).1 rfl⟩
  | some buffer =>
    have hin : buffer ∈ b.inlets := Array.mem_of_getElem? hk
    exact ⟨buffer, rfl, h.read buffer hin, fun o ho => (h.own o buffer ho).2.2 hin⟩

end Graph

/-- That a node is a unit which computes, and which a plan binds to buffers of the pool. -/
def Plan.Equips (plan : Plan) {U : Type} [Device U] (g : Graph U) (x : UnitId) : Prop :=
  ∃ n u, g.node? x = some n ∧ n.body = .device u ∧ Device.computes u = true ∧
    g.Fits x u g.pool.size (plan.binding x)

section Equips

variable {U : Type} [Device U] {g g' : Graph U} {x : UnitId} {plan : Plan}

/-- It is so as long as the graph works. -/
theorem Plan.Equips.works (h : plan.Equips g x) (hw : g.Works Alike Pool.SameBooks g') :
    plan.Equips g' x := by
  obtain ⟨n, u, hn, hu, hcomputes, hfits⟩ := h
  obtain ⟨n', hn'⟩ :=
    Graph.contains_iff.1 ((hw.shape.contains x).trans (Graph.contains_iff.2 ⟨n, hn⟩))
  have hbecomes := hw.bodies hn hn'
  rw [hu] at hbecomes
  cases hu' : n'.body with
  | subgraph =>
    rw [hu'] at hbecomes
    exact hbecomes.elim
  | device v =>
    rw [hu'] at hbecomes
    refine ⟨n', v, hn', hu', hbecomes.computes.trans hcomputes, ?_⟩
    rw [hw.pool.size]
    exact hfits.alike (hw.shape.ports x) hbecomes

/-- A plan equips every unit that has a step. -/
theorem Graph.Planned.equips (h : g.Planned Alike plan) (hroom : g.HasRoom)
    (hx : .unit x ∈ plan.steps.toList) : plan.Equips g x := by
  obtain ⟨g₀, d, hg₀, hd, rfl, hw⟩ := h
  have hshape : g₀.SameShape g := ⟨hw.shape.size, hw.shape.shape, hw.shape.connections⟩
  obtain ⟨d', hd', -, hlog, -⟩ := fullDraft_books hg₀ (hshape.symm.hasRoom hroom) (.trivial g₀)
  rw [hd] at hd'
  cases hd'
  obtain ⟨hv, n, u, hn, hu, hcomputes⟩ := (hlog.units x).1 hx
  rw [hu] at hcomputes
  refine Plan.Equips.works (g := g₀.planned d) ⟨n, u, hn, hu, hcomputes, ?_⟩ hw
  exact (hlog.fits x n u hn hu hv).alike rfl ⟨rfl, fun _ => rfl⟩

end Equips

namespace Engine

variable {settings : Settings} {e e' : Engine CatalogueUnit} {id : UnitId} {p p' : Progress}
  {ins : Inputs} {plan : Plan}

/-- That an engine has the settings, and units that fit them. -/
structure Fit (settings : Settings) (e : Engine CatalogueUnit) : Prop where
  same : e.settings = settings
  graph : e.graph.Fitted settings

/-! ## What a unit writes -/

/-- What a unit is to write is in order. -/
theorem outputs_ready (h : e.Fit settings) {n : Node CatalogueUnit} {outlets : Array Samples}
    {count : Nat}
    (houtlets : ∀ k < count, ∃ xs, outlets[k]? = some xs ∧ xs.size = settings.blockSize) :
    (e.outputs n outlets).Ready settings.blockSize count (e.graph.names.room? n.handle) := by
  have hblock : e.settings.blockSize = settings.blockSize := congrArg Settings.blockSize h.same
  unfold outputs
  cases n.handle with
  | none => exact ⟨houtlets, fun _ h => (by cases h), rfl, fun _ h => (by cases h), hblock⟩
  | some handle =>
    cases handle with
    | link slot =>
      refine ⟨houtlets, fun bus hbus => ?_, rfl, fun _ h => (by cases h), hblock⟩
      obtain ⟨l, hl, rfl⟩ := Option.map_eq_some_iff.1 hbus
      exact h.graph.names.buses slot l hl
    | store slot =>
      exact ⟨houtlets, fun _ h => (by cases h), rfl, h.graph.names.stores slot, hblock⟩

/-- What a unit has written takes the place of what was there. -/
theorem follows_writeNamed {names : Names} (hnames : names.Sized settings.blockSize)
    {handle : Option Handle} {outs : Outputs} {count : Nat}
    (houts : outs.Ready settings.blockSize count (names.room? handle)) :
    names.Follows False (writeNamed names handle outs) := by
  unfold writeNamed
  split
  · next slot bus hbus =>
    refine Names.follows_setBus fun l hl => ?_
    rw [houts.bus bus hbus, hnames.buses slot l hl]
  · next slot store hstore =>
    refine Names.follows_setStore fun s hs => ⟨?_, fun _ => houts.store store hstore⟩
    have hroom := houts.room
    rw [hstore, Names.room?, hs, Option.map_some, Option.map_some] at hroom
    exact (Option.some.inj hroom).ge
  · exact .refl _ _

theorem fitted_afterCompute (h : e.graph.Fitted settings) {n : Node CatalogueUnit}
    {u v : CatalogueUnit} (hn : e.graph.node? id = some n) (hu : n.body = .device u)
    {outs : Outputs} {count : Nat}
    (houts : outs.Ready settings.blockSize count (e.graph.names.room? n.handle))
    (hports : v.ports = u.ports) (hv : v.Fits settings (e.graph.names.room? n.handle)) :
    (e.afterCompute id n.handle v outs).graph.Fitted settings := by
  have hfollows := follows_writeNamed h.names houts
  refine (h.follows hfollows).modifyNode id fun m hm hfits => ?_
  have hmn : m = n := Option.some.inj (hm.symm.trans hn)
  subst hmn
  exact hfits.device hu hports (hv.mono fun _ => hfollows.room? False.elim)

/-! ## Pieces -/

/-- That a unit which computes has come so far in its step, and has a block of samples for each
outlet. -/
structure AtWork (settings : Settings) (id : UnitId) (p : Progress) (e : Engine CatalogueUnit) :
    Prop where
  fit : e.Fit settings
  last : p.last ≤ settings.blockSize
  unit : ∃ n u, e.graph.node? id = some n ∧ n.body = .device u ∧ u.computes = true ∧
    ∀ k < u.ports.streamOutlets, ∃ xs, p.outlets[k]? = some xs ∧ xs.size = settings.blockSize

/-- While a graph works, a unit in its step remains there if all units still fit. -/
theorem AtWork.works (h : AtWork settings id p e) {Q : Pool → Pool → Prop}
    (hw : e.Works CatalogueUnit.Kindred Q e') (hfitted : e'.graph.Fitted settings) :
    AtWork settings id p e' := by
  obtain ⟨n, u, hn, hu, hcomputes, houtlets⟩ := h.unit
  obtain ⟨n', hn'⟩ := Graph.contains_iff.1
    ((hw.graph.shape.contains id).trans (Graph.contains_iff.2 ⟨n, hn⟩))
  have hbecomes := hw.graph.bodies hn hn'
  rw [hu] at hbecomes
  cases hv : n'.body with
  | subgraph =>
    rw [hv] at hbecomes
    exact hbecomes.elim
  | device v =>
    rw [hv] at hbecomes
    have hkindred : u.Kindred v := hbecomes
    refine ⟨⟨hw.settings.trans h.fit.same, hfitted⟩, h.last, n', v, hn', hv, ?_, ?_⟩
    · exact hkindred.alike.computes.trans hcomputes
    · rw [hkindred.ports]
      exact houtlets

/-- A unit keeps what it is when something else in its node changes. -/
theorem AtWork.modifyNode (h : AtWork settings id p e)
    {f : Node CatalogueUnit → Node CatalogueUnit}
    (hw : e.Works CatalogueUnit.Kindred Eq (e.modifyNode id f))
    (hf : ∀ n, n.Fits settings e.graph.names → (f n).Fits settings e.graph.names) :
    AtWork settings id p (e.modifyNode id f) :=
  h.works hw (h.fit.graph.modifyNode id fun n _ => hf n)

/-- A unit takes the next message that waits for it. -/
theorem AtWork.takes (h : AtWork settings id p e) {next : Pending}
    (hnext : e.nextPending? id = some (next, e')) : AtWork settings id p e' := by
  obtain ⟨n, rest, hn, hpending, rfl⟩ := nextPending?_eq_some hnext
  exact h.modifyNode (works_nextPending? CatalogueUnit.kindred hnext) fun n hfits =>
    ⟨hfits.handle, hfits.ports, hfits.unit⟩

/-- A unit that computes answers nothing, so nothing new arrives when it receives a message. -/
theorem AtWork.receives (h : AtWork settings id p e) (next : Pending) :
    AtWork settings id p (e.receivePending id next) ∧
      (e.receivePending id next).waiting id = e.waiting id := by
  obtain ⟨n, u, hn, hu, hcomputes, -⟩ := h.unit
  have hposts : (u.receive next.inlet next.message (e.surroundings id)).Posts (fun _ _ => False)
      fun _ => True :=
    CatalogueUnit.posts_receive_of_computes u next.inlet next.message hcomputes (e.surroundings id)
  have hsilent : e.answers id u next.inlet next.message = [] :=
    List.eq_nil_iff_forall_not_mem.2 fun out hout => by
      obtain ⟨-, h | ⟨-, -, h⟩⟩ := hposts.of_mem_sends hout
      · exact h.2.elim
      · exact h.elim
  have hreceived : e.receivePending id next = e.received id u next.inlet next.message := by
    rw [receivePending_eq hn hu, hsilent]
    rfl
  have hworks := works_received CatalogueUnit.kindred e next.inlet next.message hn hu
  rw [hreceived]
  exact ⟨h.works hworks (fitted_received h.fit.graph hn hu next.inlet next.message),
    waiting_congr (mailbox?_received ..)⟩

section Work

variable (hs : settings.HasRoom) (hins : ins.Ready settings.blockSize)
include hs hins

/-- A piece is computed without a fault. -/
theorem compute_atWork (h : AtWork settings id p e) {stop : Nat} (hle : p.last ≤ stop)
    (hstop : stop ≤ settings.blockSize) :
    Yields (fun _ _ => False) (fun p' e' => AtWork settings id p' e' ∧ p'.last = stop)
      (compute (fun _ => ins) id stop p e) := by
  obtain ⟨n, u, hn, hu, hcomputes, houtlets⟩ := h.unit
  have hfit : (e.record (.computed id p.last stop)).Fit settings := ⟨h.fit.same, h.fit.graph⟩
  obtain ⟨⟨v, outs⟩, hprocess, hfits, hready⟩ := (CatalogueUnit.process_succeeds hs hcomputes
    ((h.fit.graph.nodes id n hn).unit u hu) hins (outputs_ready hfit houtlets) hle hstop).exists_ok
  have hkindred := CatalogueUnit.kindred.process hprocess
  have hdevice : Device.process u ins ((e.record (.computed id p.last stop)).outputs n p.outlets)
      p.last stop = .ok (v, outs) := hprocess
  rw [compute_eq, hn]
  dsimp only
  rw [hu]
  dsimp only
  rw [hdevice]
  -- it has come further, and has become another unit of its kind
  have hfurther : AtWork settings id { outlets := outs.outlets, last := stop }
      (e.record (.computed id p.last stop)) :=
    ⟨hfit, hstop, n, u, hn, hu, hcomputes, hready.outlet⟩
  exact ⟨hfurther.works (works_afterCompute CatalogueUnit.kindred _ id outs hn hu hkindred)
    (fitted_afterCompute hfit.graph hn hu hready hkindred.ports hfits), rfl⟩

/-- Nothing that happens in the step of a unit takes it from its work. -/
theorem sweeps_atWork : Sweeps (fun _ => ins) id settings.blockSize (fun _ _ => False)
    (AtWork settings id) where
  blockSize h := congrArg Settings.blockSize h.fit.same
  last h := h.last
  compute h hle hstop := compute_atWork hs hins h hle hstop
  take h := h.takes
  receive next h := h.receives next
  calm h := h.modifyNode (works_calm CatalogueUnit.kindred _ id) fun _ hfits =>
    ⟨hfits.handle, hfits.ports, hfits.unit⟩

end Work

/-! ## Steps -/

section Steps

variable {m : Memory} {binding : Binding}

/-- Once a unit has taken its buffers, there is a block in each that it reads. -/
theorem inputs_ready (h : e.Fit settings) (hm : e.graph.pool.Stores settings.blockSize m)
    {u : CatalogueUnit} (hfits : e.graph.Fits id u e.graph.pool.size binding)
    {outlets : Array Samples} {pool : Pool}
    (htake : takeOutlets binding e.graph.pool = .ok (outlets, pool)) :
    ((e.withPool pool).inputs binding).Ready settings.blockSize := by
  have hblock : pool.blockSize = settings.blockSize :=
    (takeOutlets_keeps htake).blockSize.trans hm.blockSize
  refine ⟨fun k => ?_, ?_, congrArg Settings.blockSize h.same⟩
  · obtain ⟨buffer, hbuffer, hbelow, hnot⟩ := hfits.exists_buffer k
    rw [inlet_eq hm hfits.apart htake hbuffer hbelow hnot]
    exact hm.size_read hbelow
  · show (silence pool.blockSize).size = _
    rw [hblock]
    simp [silence]

/-- That all is there to perform a plan. -/
structure Staged (settings : Settings) (plan : Plan) (e : Engine CatalogueUnit) : Prop where
  fit : e.Fit settings
  playable : plan.Playable e.graph
  equips : ∀ x, .unit x ∈ plan.steps.toList → plan.Equips e.graph x
  stores : ∃ m, e.graph.pool.Stores settings.blockSize m

theorem Staged.works (h : Staged settings plan e) (hw : e.Works Alike Pool.SameBooks e')
    (hfit : e'.Fit settings) (hm : e'.graph.pool.Stores settings.blockSize m) :
    Staged settings plan e' :=
  ⟨hfit, h.playable.works hw.graph, fun x hx => (h.equips x hx).works hw.graph, m, hm⟩

variable (hs : settings.HasRoom)
include hs

/-- The step of a unit meets no fault. -/
theorem computeBlock_performs (h : e.Fit settings)
    (hm : e.graph.pool.Stores settings.blockSize m) (hequips : plan.Equips e.graph id) :
    Yields (fun _ _ => False)
      (fun outs e' => (e.Works Alike Pool.SameBooks e' ∧ e'.graph.pool.Stores settings.blockSize
        (m.write (plan.binding id) fun o => (outs[o]?).getD #[])) ∧ e'.Fit settings)
      (computeBlock (·.inputs (plan.binding id)) id (plan.binding id) e) := by
  obtain ⟨n, u, hn, hu, hcomputes, hfits⟩ := hequips
  obtain ⟨outlets, pool, htake, -, houtlets, -⟩ := takeOutlets_spec hm hfits.apart
  rw [computeBlock_reads CatalogueUnit.steady.alike id _ htake]
  refine computeBlock_yields CatalogueUnit.steady hm hfits.apart hn _
    (P := fun _ e => e.Fit settings)
    (fun _ e _ h => ⟨h.same, h.graph.of_nodes rfl rfl⟩) ?_
  intro outlets' pool' htake'
  cases htake.symm.trans htake'
  have hports : e.graph.ports id = u.ports := by
    rw [Graph.ports, hn]
    exact (h.graph.nodes id n hn).ports u hu
  have hstart : AtWork settings id { outlets } (e.withPool pool) := by
    refine ⟨⟨h.same, h.graph.of_nodes rfl rfl⟩, Nat.zero_le _, n, u, hn, hu, hcomputes, ?_⟩
    intro k hk
    rw [← hports] at hk
    obtain ⟨i, howns⟩ := hfits.pooled k hk (CatalogueUnit.source_of_computes hcomputes k)
    exact houtlets k _ howns
  exact ((sweeps_atWork hs (inputs_ready h hm hfits htake)).computeSamples hstart hn).mono
    fun _ _ hend => hend.1.fit

/-- A step meets no fault, and leaves all there that the others need. -/
theorem runStep_staged (h : Staged settings plan e) {s : Step} (hmem : s ∈ plan.steps.toList) :
    Yields (fun _ _ => False) (fun _ e' => Staged settings plan e') (runStep plan s e) := by
  obtain ⟨m, hm⟩ := h.stores
  cases s with
  | unit x =>
    refine (computeBlock_performs hs h.fit hm (h.equips x hmem)).bind ?_
    rintro outs e' ⟨⟨hworks, hstores⟩, hfit⟩
    exact h.works hworks hfit hstores
  | sum left right out =>
    have hmix := (h.playable.sums _ hmem).resolve_right (by simp)
    obtain ⟨q, hq, hbooks, hstores⟩ := hm.sumInto hmix plan.binding (fun _ _ => #[])
    rw [runStep, onPool_eq, hq]
    exact h.works (works_withPool CatalogueUnit.steady.alike.refl e hbooks)
      ⟨h.fit.same, h.fit.graph.of_nodes rfl rfl⟩ hstores

/-- Steps of a plan meet no fault. -/
theorem play_staged (h : Staged settings plan e) {steps : List Step}
    (hsub : ∀ s ∈ steps, s ∈ plan.steps.toList) :
    Yields (fun _ _ => False) (fun _ e' => Staged settings plan e') (play plan steps e) := by
  induction steps generalizing e with
  | nil => exact h
  | cons s steps ih =>
    rw [play, List.forM_cons]
    refine (runStep_staged hs h (hsub s List.mem_cons_self)).bind fun _ e₁ h₁ => ?_
    exact ih h₁ fun s hs => hsub s (List.mem_cons_of_mem _ hs)

end Steps
end Engine
end Patchbay
