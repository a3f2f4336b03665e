import Patchbay.Proofs.Catalogue.Steady
import Patchbay.Proofs.Engine.Precedence

/-!
# Playing a plan

A plan that was made from a graph can be played on it (`Playable`): its steps meet no fault but those
of units, and act on the buffers as on a memory (`play_spec`, `play_stores`). Hence every unit reads
at its inlets what the graph sounds like there (`process_sounds`).
-/

namespace Patchbay

variable {U : Type} [Device U] {R : U → U → Prop}

/-- That a plan fits a graph and its pool. -/
structure Plan.Playable (plan : Plan) (g : Graph U) : Prop where
  sums : ∀ s ∈ plan.steps.toList, s.Mixes g.pool.size ∨ ∃ x, s = .unit x
  contains : ∀ x, .unit x ∈ plan.steps.toList → g.contains x = true
  apart : ∀ x, .unit x ∈ plan.steps.toList → Engine.Apart (plan.binding x) g.pool.size
  once : (plan.steps.toList.filterMap Step.unit?).Nodup

omit [Device U] in
theorem Plan.Playable.works {plan : Plan} {g g' : Graph U} (h : plan.Playable g)
    (hw : g.Works R Pool.SameBooks g') : plan.Playable g' where
  sums s hs := by
    rw [hw.pool.size]
    exact h.sums s hs
  contains x hx := (hw.shape.contains x).trans (h.contains x hx)
  apart x hx := by
    rw [hw.pool.size]
    exact h.apart x hx
  once := h.once

/-- Whether a node computes if it has a stream of its own. -/
def Node.computesStreams (n : Node U) : Bool :=
  match n.body with
  | .subgraph => true
  | .device u => (List.range n.ports.streamOutlets).all fun o =>
      decide (Device.source u o ≠ .pooled) || Device.computes u

namespace Graph

variable {g : Graph U}

theorem pooledComputes_of_all (h : (g.nodes.all fun n => n.all Node.computesStreams) = true) :
    g.PooledComputes := by
  intro x n u o hn hu ho hsource
  have hmem : some n ∈ g.nodes := by
    rw [node?, Option.join_eq_some_iff] at hn
    exact Array.mem_of_getElem? hn
  have hnode : n.computesStreams = true := Array.all_eq_true'.1 h _ hmem
  have hports : g.ports x = n.ports := by simp [ports, hn]
  simp only [Node.computesStreams, hu, List.all_eq_true, List.mem_range, Bool.or_eq_true,
    decide_eq_true_eq] at hnode
  exact (hnode o (hports ▸ ho)).resolve_left fun h => h hsource

theorem Fits.apart {x : UnitId} {u : U} {size : Nat} {b : Binding} (h : g.Fits x u size b) :
    Engine.Apart b size where
  own o buffer ho := ⟨(h.own o buffer ho).1, (h.own o buffer ho).2.1⟩
  once := h.once

/-- The graph that a plan was made from, and the draft that came to it. -/
theorem Planned.origin {plan : Plan} (h : g.Planned Alike plan) (hroom : g.HasRoom) :
    ∃ (g₀ : Graph U) (d : Draft), g₀.Sound ∧ g₀.HasRoom ∧ g₀.fullDraft = .ok d ∧ plan = d.plan ∧
      g₀.Resembles g ∧ g.pool.size = d.pool.size := by
  obtain ⟨g₀, d, hg₀, hd, hplan, hw⟩ := h
  have hshape : g₀.SameShape g := ⟨hw.shape.size, hw.shape.shape, hw.shape.connections⟩
  have hroom₀ := hshape.symm.hasRoom hroom
  obtain ⟨d', hd', -, hlog, -⟩ := fullDraft_books hg₀ hroom₀ (.trivial g₀)
  rw [hd] at hd'
  cases hd'
  exact ⟨g₀, d, hg₀, hroom₀, hd, hplan,
    ⟨hshape, hw.bodies, hw.pool.blockSize.trans hlog.pool.blockSize⟩, hw.pool.size⟩

/-- A plan that was made from a graph fits it. -/
theorem Planned.playable {plan : Plan} (h : g.Planned R plan) (hroom : g.HasRoom) :
    plan.Playable g := by
  obtain ⟨g₀, d, hg₀, hd, rfl, hw⟩ := h
  have hshape : g₀.SameShape g := ⟨hw.shape.size, hw.shape.shape, hw.shape.connections⟩
  obtain ⟨d', hd', -, hlog, -⟩ := fullDraft_books hg₀ (hshape.symm.hasRoom hroom) (.trivial g₀)
  rw [hd] at hd'
  cases hd'
  have hplay : d.plan.Playable (g₀.planned d) := by
    refine ⟨hlog.sums, fun x hx => ?_, fun x hx => ?_, hlog.once⟩
    · obtain ⟨-, n, u, hn, -⟩ := (hlog.units x).1 hx
      exact contains_iff.2 ⟨n, hn⟩
    · obtain ⟨hv, n, u, hn, hu, -⟩ := (hlog.units x).1 hx
      exact (hlog.fits x n u hn hu hv).apart
  exact hplay.works hw

end Graph

namespace Engine

variable {e e' : Engine U} {plan : Plan} {size : Nat} {m : Memory}

/-- What a unit writes at its outlets in its step. -/
def writes (plan : Plan) (e : Engine U) (x : UnitId) (outlet : Nat) : Samples :=
  match computeBlock (·.inputs (plan.binding x)) x (plan.binding x) e with
  | .ok outs _ => (outs[outlet]?).getD #[]
  | .error .. => #[]

/-- What a unit writes at its outlets when some steps are run. -/
def written (plan : Plan) : List Step → Engine U → UnitId → Nat → Samples
  | [], _, _ => fun _ => #[]
  | s :: steps, e, x =>
    if s = .unit x then writes plan e x
    else
      match runStep plan s e with
      | .ok _ e => written plan steps e x
      | .error .. => fun _ => #[]

/-- A step meets no fault but a unit's own, and acts on the buffers as on a memory. -/
theorem runStep_spec (hs : Steady U) (hplay : plan.Playable e.graph)
    (hm : e.graph.pool.Stores size m) {s : Step} (hmem : s ∈ plan.steps.toList) :
    Yields UnitFault (fun _ e' => e.Works Alike Pool.SameBooks e' ∧
      e'.graph.pool.Stores size (m.step size plan.binding (writes plan e) s)) (runStep plan s e) := by
  cases s with
  | unit x =>
    have hspec := computeBlock_spec hs hm (hplay.apart x hmem) (hplay.contains x hmem)
      (·.inputs (plan.binding x))
    rw [runStep, runUnit, run_bind]
    cases hc : computeBlock (·.inputs (plan.binding x)) x (plan.binding x) e with
    | error f e' =>
      rw [hc] at hspec
      exact hspec
    | ok outs e' =>
      rw [hc] at hspec
      obtain ⟨hw, hstores⟩ := hspec
      have hwrites : writes plan e x = fun o => (outs[o]?).getD #[] := by
        funext o
        rw [writes, hc]
      refine ⟨hw, ?_⟩
      rw [Memory.step, hwrites]
      exact hstores
  | sum left right out =>
    have hmix := (hplay.sums _ hmem).resolve_right (by simp)
    obtain ⟨q, hq, hbooks, hstores⟩ := hm.sumInto hmix plan.binding (writes plan e)
    rw [runStep, onPool_eq, hq]
    exact ⟨works_withPool hs.alike.refl e hbooks, hstores⟩

/-- Steps meet no fault but those of units, and leave every buffer with the samples of a block. -/
theorem play_spec (hs : Steady U) (hplay : plan.Playable e.graph) (hm : e.graph.pool.Filled)
    {steps : List Step} (hsub : ∀ s ∈ steps, s ∈ plan.steps.toList) :
    Yields UnitFault (fun _ e' => e.Works Alike Pool.SameBooks e' ∧ e'.graph.pool.Filled)
      (play plan steps e) := by
  induction steps generalizing e with
  | nil => exact ⟨(works_refl hs.alike e).sameBooks, hm⟩
  | cons s steps ih =>
    obtain ⟨m, hm⟩ := hm
    rw [play, List.forM_cons]
    refine (runStep_spec hs hplay hm (hsub s List.mem_cons_self)).bind ?_
    rintro _ e₁ ⟨hw₁, hm₁⟩
    refine (ih (hplay.works hw₁.graph) hm₁.filled
      fun s hs => hsub s (List.mem_cons_of_mem _ hs)).mono ?_
    rintro _ e₂ ⟨hw₂, hm₂⟩
    exact ⟨hw₁.trans_sameBooks hs.alike.trans hw₂, hm₂⟩

/-- The buffers go the way of the memory. -/
theorem play_stores (hs : Steady U) (hplay : plan.Playable e.graph)
    (hm : e.graph.pool.Stores size m) {pre post : List Step}
    (hsub : ∀ s ∈ pre, s ∈ plan.steps.toList)
    (honce : ((pre ++ post).filterMap Step.unit?).Nodup) (hrun : play plan pre e = .ok ⟨⟩ e') :
    e'.graph.pool.Stores size (m.run size plan.binding (written plan (pre ++ post) e) pre) := by
  induction pre generalizing e m with
  | nil =>
    cases hrun
    exact hm
  | cons s pre ih =>
    rw [play, List.forM_cons] at hrun
    obtain ⟨_, e₁, hstep, hrun⟩ := run_bind_eq_ok.1 hrun
    obtain ⟨hw₁, hm₁⟩ := (runStep_spec hs hplay hm (hsub s List.mem_cons_self)).of_ok hstep
    have hm₁' : m.step size plan.binding (writes plan e) s =
        m.step size plan.binding (written plan (s :: pre ++ post) e) s := by
      cases s with
      | unit x => simp only [Memory.step, List.cons_append, written, if_true]
      | sum left right out => cases out <;> rfl
    -- no unit has a second step
    have hlater : ∀ x, .unit x ∈ pre →
        written plan (pre ++ post) e₁ x = written plan (s :: pre ++ post) e x := by
      intro x hx
      have hne : s ≠ .unit x := by
        rintro rfl
        have hnodup : (x :: (pre ++ post).filterMap Step.unit?).Nodup := honce
        exact (List.nodup_cons.1 hnodup).1
          (List.mem_filterMap.2 ⟨_, List.mem_append_left _ hx, rfl⟩)
      rw [List.cons_append, written, if_neg hne, hstep]
    have htail : ((pre ++ post).filterMap Step.unit?).Nodup := by
      cases s with
      | unit x =>
        have hnodup : (x :: (pre ++ post).filterMap Step.unit?).Nodup := honce
        exact (List.nodup_cons.1 hnodup).2
      | sum => exact honce
    have := ih (hplay.works hw₁.graph) (hm₁' ▸ hm₁) (fun s hs => hsub s (List.mem_cons_of_mem _ hs))
      htail hrun
    rw [Memory.run_congr hlater] at this
    exact this

/-- Every piece of a unit's step reads at the inlets what the graph sounds like there, given what
all units write in the block. -/
theorem play_sounds (hs : Steady U) (hplanned : e.graph.Planned Alike plan)
    (hroom : e.graph.HasRoom) (hpooled : e.graph.PooledComputes) (hm : e.graph.pool.Filled)
    {pre post : List Step} {x : UnitId} (hsplit : plan.steps.toList = pre ++ .unit x :: post)
    (hrun : play plan pre e = .ok ⟨⟩ e') :
    ∃ ins, computeBlock (·.inputs (plan.binding x)) x (plan.binding x) e' =
        computeBlock (fun _ => ins) x (plan.binding x) e' ∧
      ∀ i < (e.graph.ports x).streamInlets, ∃ xs, ins.inlet i = .ok xs ∧
        e.graph.Sounds (written plan plan.steps.toList e) [.inlet x i] xs := by
  have hplay := hplanned.playable hroom
  obtain ⟨m, hm⟩ := hm
  obtain ⟨g₀, d, hg₀, hroom₀, hd, rfl, hres, hsize⟩ := hplanned.origin hroom
  have hmem : ∀ s ∈ pre, s ∈ d.plan.steps.toList := fun s hs => by
    rw [hsplit]
    exact List.mem_append_left _ hs
  have hx : Step.unit x ∈ d.plan.steps.toList := by simp [hsplit]
  -- the buffers when the step comes
  have honce : ((pre ++ .unit x :: post).filterMap Step.unit?).Nodup := hsplit ▸ hplay.once
  have hstores := play_stores hs hplay hm hmem honce hrun
  rw [← hsplit] at hstores
  have hworks := play_works hs.alike d.plan pre hrun
  have hapart : Apart (d.plan.binding x) e'.graph.pool.size := by
    rw [hworks.graph.pool.size]
    exact hplay.apart x hx
  obtain ⟨outs, q, htake, -⟩ := takeOutlets_spec hstores hapart
  refine ⟨_, computeBlock_reads hs.alike x _ htake, fun i hi => ?_⟩
  -- what planning says about them
  obtain ⟨d', hd', -, hlog, -⟩ := Graph.fullDraft_books hg₀ hroom₀
    (Graph.memoryMeaning g₀ (written d.plan d.plan.steps.toList e) (hres.symm.pooledComputes hpooled))
  rw [hd] at hd'
  cases hd'
  obtain ⟨hv, n, u, hn, hu, -⟩ := (hlog.units x).1 hx
  have hfits := hlog.fits x n u hn hu hv
  obtain ⟨d₀, hpre, hkeeps, hholds⟩ := hlog.read pre x post hsplit
  have hlt : i < (d.binding x).inlets.size := by
    rw [hfits.inlets, ← hres.shape.ports]
    exact hi
  have hbuffer : (d.plan.binding x).inlets[i]? = some (d.binding x).inlets[i] :=
    Array.getElem?_eq_getElem hlt
  generalize (d.binding x).inlets[i] = buffer at hbuffer
  obtain ⟨xs, hsounds, hread⟩ := hholds i buffer hbuffer
  have hin : buffer ∈ (d.binding x).inlets := Array.mem_of_getElem? hbuffer
  have hbelow : buffer.Below e'.graph.pool.size := by
    rw [hworks.graph.pool.size, hsize]
    exact hfits.read buffer hin
  have hinlet := inlet_eq (i := i) hstores hapart htake (by rw [hbuffer, Option.getD_some]) hbelow
    fun o ho => (hfits.own o buffer ho).2.2 hin
  refine ⟨xs, ?_, hres.sounds hsounds⟩
  have hblock : e.graph.pool.blockSize = g₀.blockSize := hres.blockSize
  rw [hinlet, ← hread d.plan.binding m fun y hy hunit => (hkeeps y hy hunit).2, hpre, hblock]

/-! ## Runs with room -/

/-- Planning adds silent buffers to the pool, and changes nothing else that planning looks at. -/
theorem compile_extends {g g' : Graph U} (hg : g.Sound) (hroom : g.HasRoom)
    (h : g.compile = .ok (plan, g')) : g.pool.Extends g'.pool ∧ g.Resembles g' := by
  rcases Graph.compile_cases h with ⟨-, rfl⟩ | ⟨-, d, hd, -, rfl⟩
  · exact ⟨.refl _, .of_nodes rfl rfl rfl⟩
  · obtain ⟨d', hd', -, hlog, -⟩ := Graph.fullDraft_books hg hroom (.trivial g)
    rw [hd] at hd'
    cases hd'
    exact ⟨hlog.pool, .of_nodes rfl rfl hlog.pool.blockSize⟩

theorem Turn.filled (hs : Steady U) (h : Turn Alike e e') (hk : e.graph.Kept Alike)
    (hroom : e.graph.HasRoom) (hf : e.graph.pool.Filled) : e'.graph.pool.Filled := by
  cases h with
  | works h => exact h.pool ▸ hf
  | edited _ _ pool => exact pool ▸ hf
  | planned plan h => exact hf.extends (compile_extends hk.sound hroom h).1
  | played opened planned plan ended opens plans plays graph =>
    obtain ⟨g, hg, rfl⟩ := compile_eq_ok.1 plans
    have hopened := hk.works hs.alike (opens.mono .of_eq)
    have hroom₁ := opens.shape.hasRoom hroom
    obtain ⟨hext, hres⟩ := compile_extends hopened.sound hroom₁ hg
    have hfilled := Pool.Filled.extends (opens.pool ▸ hf) hext
    have hplay := (hopened.planned hs.alike hg).playable (hres.shape.hasRoom hroom₁)
    rw [graph]
    exact ((play_spec hs hplay hfilled fun _ h => h).of_ok plays).2

theorem Roomy.filled (hs : Steady U) {settings : Settings} (h : Roomy settings e) :
    e.graph.pool.Filled := by
  induction h with
  | start hnew =>
    rw [graph_of_new hnew]
    exact ⟨fun _ => #[], rfl, fun i hi => by simp [Graph.empty, Pool.size] at hi,
      fun i hi => by simp [Graph.empty, Pool.size] at hi⟩
  | step hr hroom hafter ih =>
    have hk := kept_of_reachable hs.alike hr.reachable
    exact (turn_of_after hs.alike hk.sound hafter).filled hs hk hroom ih

/-- The length of blocks is settled once and for all. -/
theorem Turn.blockSize (hs : Steady U) (h : Turn Alike e e') (hk : e.graph.Kept Alike)
    (hroom : e.graph.HasRoom) : e'.graph.pool.blockSize = e.graph.pool.blockSize := by
  cases h with
  | works h => rw [h.pool]
  | edited _ _ pool => rw [pool]
  | planned plan h => exact (compile_extends hk.sound hroom h).1.blockSize
  | played opened planned plan ended opens plans plays graph =>
    obtain ⟨g, hg, rfl⟩ := compile_eq_ok.1 plans
    have hopened := hk.works hs.alike (opens.mono .of_eq)
    have hext := (compile_extends hopened.sound (opens.shape.hasRoom hroom) hg).1
    have hplay := (play_works hs.alike plan _ plays).graph.pool.blockSize
    rw [graph, hplay, hext.blockSize, opens.pool]

theorem Roomy.blockSize (hs : Steady U) {settings : Settings} (h : Roomy settings e) :
    e.graph.pool.blockSize = settings.blockSize := by
  induction h with
  | start hnew =>
    rw [graph_of_new hnew]
    rfl
  | step hr hroom hafter ih =>
    have hk := kept_of_reachable hs.alike hr.reachable
    exact ((turn_of_after hs.alike hk.sound hafter).blockSize hs hk hroom).trans ih

/-- That an engine in which all that is due has been handed back has a plan, and a graph on which the
plan can be played. -/
structure Starts (e drained : Engine U) (plan : Plan) (g : Graph U) : Prop where
  compiles : compile drained = .ok plan { drained with graph := g }
  kept : g.Kept Alike
  planned : g.Planned Alike plan
  room : g.HasRoom
  filled : g.pool.Filled
  blockSize : g.pool.blockSize = e.graph.pool.blockSize
  nodes : g.nodes = drained.graph.nodes
  names : g.names = drained.graph.names

/-- Once all that is due has been handed back, there is a plan, or one can be made. -/
theorem exists_starts (hs : Steady U) (hk : e.graph.Kept Alike) (hroom : e.graph.HasRoom)
    (hfilled : e.graph.pool.Filled) {input : Samples} {drained : Engine U}
    (hdrain : drain e.blockEnd roundLimit (openBlock input e) = .ok ⟨⟩ drained) :
    ∃ plan g, Starts e drained plan g := by
  have hopens : e.graph.Works Alike Eq drained.graph := works_opened hs.alike hdrain
  have hkept := hk.works hs.alike (hopens.mono .of_eq)
  have hroom' := hopens.shape.hasRoom hroom
  obtain ⟨plan, g, hcompile⟩ := hkept.exists_plan hroom'
  obtain ⟨hext, hres⟩ := compile_extends hkept.sound hroom' hcompile
  have hnodes : g.nodes = drained.graph.nodes ∧ g.names = drained.graph.names := by
    rcases Graph.compile_cases hcompile with ⟨-, rfl⟩ | ⟨-, d, -, -, rfl⟩ <;> exact ⟨rfl, rfl⟩
  exact ⟨plan, g, compile_eq_ok.2 ⟨g, hcompile, rfl⟩, hkept.compile hs.alike hcompile,
    hkept.planned hs.alike hcompile, hres.shape.hasRoom hroom',
    Pool.Filled.extends (hopens.pool ▸ hfilled) hext, hopens.pool ▸ hext.blockSize,
    hnodes.1, hnodes.2⟩

/-- In a block every unit that computes has one step, and reads in it what the graph sounds like at
its inlets. -/
theorem process_sounds (hs : Steady U) {settings : Settings} (h : Roomy settings e)
    (hroom : e.graph.HasRoom) (hpooled : e.graph.PooledComputes) {input : Samples}
    (hdrain : drain e.blockEnd roundLimit (openBlock input e) = .ok ⟨⟩ e') :
    ∃ plan started, compile e' = .ok plan started ∧ plan.units.Nodup ∧
      (∀ x, x ∈ plan.units ↔ e'.graph.Computes x) ∧
      Yields UnitFault (fun _ _ => True) (play plan plan.steps.toList started) ∧
      ∀ {pre post : List Step} {x : UnitId} {reached : Engine U},
        plan.steps.toList = pre ++ .unit x :: post → play plan pre started = .ok ⟨⟩ reached →
        ∃ ins, computeBlock (·.inputs (plan.binding x)) x (plan.binding x) reached =
            computeBlock (fun _ => ins) x (plan.binding x) reached ∧
          ∀ i < (started.graph.ports x).streamInlets, ∃ xs, ins.inlet i = .ok xs ∧
            started.graph.Sounds (written plan plan.steps.toList started) [.inlet x i] xs := by
  have hk := kept_of_reachable hs.alike h.reachable
  have hopens : e.graph.Works Alike Eq e'.graph :=
    (works_openBlock hs.alike input e).trans hs.alike.trans (fun _ _ _ h h' => h.trans h')
      ((works_drain hs.alike _ _ _).of_ok hdrain).graph
  have hk' := hk.works hs.alike (hopens.mono .of_eq)
  have hroom' := hopens.shape.hasRoom hroom
  obtain ⟨plan, g, hc⟩ := hk'.exists_plan hroom'
  obtain ⟨hext, hres⟩ := compile_extends hk'.sound hroom' hc
  have hplanned := hk'.planned hs.alike hc
  have hroom₁ := hres.shape.hasRoom hroom'
  have hplay := hplanned.playable hroom₁
  have hfilled := Pool.Filled.extends (hopens.pool ▸ h.filled hs) hext
  have hpooled₁ := hres.pooledComputes ((hopens.mono .of_eq).resembles.pooledComputes hpooled)
  refine ⟨plan, { e' with graph := g }, compile_eq_ok.2 ⟨g, hc, rfl⟩, hplay.once,
    fun x => hplanned.mem_units.trans hres.computes, ?_, fun hsplit hrun => ?_⟩
  · exact (play_spec hs hplay hfilled fun _ h => h).mono fun _ _ _ => ⟨⟩
  · exact play_sounds hs hplanned hroom₁ hpooled₁ hfilled hsplit hrun

/-- Two streams meet at the inlet of a subgraph, which passes their sum on. -/
theorem process_sounds_subgraph : ∃ e e' : Engine CatalogueUnit, Roomy smallBlocks e ∧
    e.graph.HasRoom ∧ e.graph.PooledComputes ∧
    drain e.blockEnd roundLimit (openBlock #[] e) = .ok ⟨⟩ e' ∧
    ∃ plan started, compile e' = .ok plan started ∧ plan.units.Nodup ∧
      (∀ x, x ∈ plan.units ↔ e'.graph.Computes x) ∧
      Yields UnitFault (fun _ _ => True) (play plan plan.steps.toList started) ∧
      ∀ {pre post : List Step} {x : UnitId} {reached : Engine CatalogueUnit},
        plan.steps.toList = pre ++ .unit x :: post → play plan pre started = .ok ⟨⟩ reached →
        ∃ ins, computeBlock (·.inputs (plan.binding x)) x (plan.binding x) reached =
            computeBlock (fun _ => ins) x (plan.binding x) reached ∧
          ∀ i < (started.graph.ports x).streamInlets, ∃ xs, ins.inlet i = .ok xs ∧
            started.graph.Sounds (written plan plan.steps.toList started) [.inlet x i] xs := by
  obtain ⟨e, hroomy, h⟩ := exists_roomy smallBlocks
    [ .addUnit none (CatalogueUnit.constant ⟨1⟩), .addUnit none (.constant ⟨2⟩), .addSubgraph none,
      .addUnit (some ⟨2⟩) (.port ⟨.inlet, true⟩), .addUnit (some ⟨2⟩) (.port ⟨.outlet, true⟩),
      .addUnit none (.hostOutput ⟨1⟩), .connect ⟨⟨0⟩, 0, ⟨2⟩, 0⟩, .connect ⟨⟨1⟩, 0, ⟨2⟩, 0⟩,
      .connect ⟨⟨3⟩, 0, ⟨4⟩, 0⟩, .connect ⟨⟨2⟩, 0, ⟨5⟩, 0⟩ ]
    (fun e => decide e.graph.HasRoom && (e.graph.nodes.all fun n => n.all Node.computesStreams) &&
      e.queue.events.isEmpty && e.graph.connections.length == 4) (by cbv)
  simp only [Bool.and_eq_true, decide_eq_true_eq, List.isEmpty_iff] at h
  obtain ⟨⟨⟨hroom, hnodes⟩, hqueue⟩, -⟩ := h
  have hpooled := Graph.pooledComputes_of_all hnodes
  have hdrain : drain e.blockEnd roundLimit (openBlock #[] e) = .ok ⟨⟩ (openBlock #[] e) := by
    refine drain_of_drainOne?_eq_none (roundLimit - 1) ?_
    have hopened : (openBlock #[] e).queue.events = [] := hqueue
    simp [drainOne?, Queue.popBefore?, hopened]
  exact ⟨e, _, hroomy, hroom, hpooled, hdrain,
    process_sounds CatalogueUnit.steady hroomy hroom hpooled hdrain⟩

end Engine
end Patchbay
