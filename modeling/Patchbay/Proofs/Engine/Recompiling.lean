import Patchbay.Proofs.Catalogue.Steady
import Patchbay.Proofs.Engine.Conservation
import Patchbay.Proofs.Graph.Blindness
import Patchbay.Proofs.Names.Roster
import Patchbay.Proofs.Planning.Mirroring

/-!
# Plans go by the topology

A graph by itself is worked through **calls**: edits, some of them refused, planning, and giving up the
plan. Whatever calls have led to a graph, the steps and the bindings of its plan depend on its topology
alone (`layout_by_topology`). Only the number of buffers tells of the past.
-/

namespace Patchbay

variable {U : Type} [Device U]

/-- What a plan says but for the number of buffers: its steps, and the buffers at every port. -/
def Plan.layout (p : Plan) : Array Step × (UnitId → Binding) := (p.steps, p.binding)

namespace Graph

variable {g g' : Graph U}

/-- The layout of the plan that a graph comes to. -/
def layout (g : Graph U) : Except Fault (Array Step × (UnitId → Binding)) :=
  (fun r => r.1.layout) <$> g.compile

/-- The graph after an edit, which may be refused, as long as no rule is broken. -/
def edited {α : Type} (change : Edit U α) (g : Graph U) : Option (Graph U) :=
  match change g with
  | .ok _ g' | .error (.refused _) g' => some g'
  | .error (.broken _) _ => none

/-- The graph without its plan. -/
def invalidate (g : Graph U) : Graph U := { g with plan := none }

/-- The graph with a pool that has never been used, and without its plan. -/
def renewed (g : Graph U) (blockSize : Nat) : Graph U :=
  { g with pool := { blockSize }, plan := none }

/-! ## Planning from scratch -/

omit [Device U] in
theorem SameParts.sound (h : g.SameParts g') (hg : g.Sound) : g'.Sound := by
  obtain ⟨pool, plan, notices, rfl⟩ := h.eq
  exact ⟨hg.wired.of_sublist rfl (.refl _), hg.nested.of_nodes rfl, hg.registered.of_nodes rfl rfl⟩

theorem SameParts.sameTopology (h : g.SameParts g') : g.SameTopology g' := by
  obtain ⟨pool, plan, notices, rfl⟩ := h.eq
  exact ⟨(SameTopology.refl g).nodes, fun _ _ => rfl, fun _ _ => rfl, fun _ _ => rfl, fun _ => rfl⟩

omit [Device U] in
theorem sameParts_renewed (g : Graph U) (blockSize : Nat) : (g.renewed blockSize).SameParts g :=
  ⟨rfl, rfl, rfl⟩

/-- The layout that a graph comes to when it is planned from scratch. -/
def newLayout (g : Graph U) : Except Fault (Array Step × (UnitId → Binding)) :=
  (fun d => d.plan.layout) <$> g.fullDraft

theorem layout_of_plan_eq_none (h : g.plan = none) : g.layout = g.newLayout := by
  rw [layout, newLayout, compile, h]
  cases g.fullDraft <;> rfl

/-- A graph whose pool has never been used comes to the same layout as one of its topology that has
given out more numbers and more buffers. -/
theorem newLayout_of_fresh (h : g.SameTopology g') (hg : g.Sound) (hg' : g'.Sound)
    (hsize : g.nodes.size ≤ g'.nodes.size) {blockSize : Nat} (hpool : g.pool = { blockSize }) :
    g'.newLayout = g.newLayout := by
  have hpools : g.pool.reset.Ahead g'.pool.reset := by
    rw [hpool]
    exact Pool.ahead_reset blockSize g'.pool
  rcases (fullDraft_tracks h hg hg' hsize hpools).cases_of_outcome (fullDraft_found hg)
    (fun f hf hnot => hnot hf) with ⟨d, d', hd, hd', hm⟩ | ⟨f, hf, hf'⟩
  · rw [newLayout, newLayout, hd, hd']
    exact congrArg Except.ok (Prod.ext hm.steps (funext hm.bindings))
  · rw [newLayout, newLayout, hf, hf']

/-- Planned from scratch, graphs of one topology come to one layout. -/
theorem newLayout_eq (h : g.SameTopology g') (hg : g.Sound) (hg' : g'.Sound) :
    g'.newLayout = g.newLayout := by
  -- both are compared with the one that has given out fewer numbers, with a fresh pool
  have hcompare : ∀ {g g' : Graph U}, g.SameTopology g' → g.Sound → g'.Sound →
      g.nodes.size ≤ g'.nodes.size → g'.newLayout = g.newLayout := by
    intro g g' h hg hg' hsize
    have hparts := g.sameParts_renewed 0
    have hrenewed : (g.renewed 0).Sound := hparts.symm.sound hg
    have htopology := hparts.sameTopology
    exact (newLayout_of_fresh (htopology.trans h) hrenewed hg' hsize rfl).trans
      (newLayout_of_fresh htopology hrenewed hg (le_refl _) rfl).symm
  rcases le_total g.nodes.size g'.nodes.size with hle | hle
  · exact hcompare h hg hg' hle
  · exact (hcompare h.symm hg' hg hle).symm

/-! ## Graphs with a plan -/

/-- That the plan of a graph, if it has one, was made from a graph of its topology. -/
structure Current (g : Graph U) : Prop where
  sound : g.Sound
  plan : ∀ plan, g.plan = some plan → ∃ (g₀ : Graph U) (d : Draft),
    g₀.Sound ∧ g₀.fullDraft = .ok d ∧ plan = d.plan ∧ g₀.SameTopology g

namespace Current

theorem of_plan_eq_none (hg : g.Sound) (hp : g.plan = none) : g.Current :=
  ⟨hg, fun _ h => by simp [hp] at h⟩

/-- A plan that is kept has the layout that planning from scratch would come to. -/
theorem layout_eq (h : g.Current) : g.layout = g.newLayout := by
  cases hp : g.plan with
  | none => exact layout_of_plan_eq_none hp
  | some plan =>
    obtain ⟨g₀, d, hg₀, hd, rfl, htopology⟩ := h.plan plan hp
    rw [newLayout_eq htopology hg₀ h.sound, newLayout, hd, layout, compile_of_plan hp]
    rfl

theorem layout_eq_layout (h : g.Current) (h' : g'.Current) (htopology : g.SameTopology g') :
    g'.layout = g.layout := by
  rw [h.layout_eq, h'.layout_eq, newLayout_eq htopology h.sound h'.sound]

theorem renewed (h : g.Current) (blockSize : Nat) : (g.renewed blockSize).Current :=
  .of_plan_eq_none ((g.sameParts_renewed blockSize).symm.sound h.sound) rfl

/-- Nothing of the past is in the layout: a fresh pool leads to the same. -/
theorem layout_renewed (h : g.Current) (blockSize : Nat) :
    (g.renewed blockSize).layout = g.layout :=
  h.layout_eq_layout (h.renewed blockSize) (g.sameParts_renewed blockSize).symm.sameTopology

theorem edited {α : Type} {change : Edit U α} (hc : change.Proper) (h : g.Current)
    (he : g.edited change = some g') : g'.Current := by
  unfold Graph.edited at he
  split at he
  · next hr =>
    cases he
    exact .of_plan_eq_none (hc.sound h.sound hr) (hc.outdates hr).1
  · next hr =>
    cases he
    exact hc.refused hr ▸ h
  · cases he

theorem compile {plan : Plan} (h : g.Current) (hc : g.compile = .ok (plan, g')) : g'.Current := by
  rcases compile_cases hc with ⟨-, rfl⟩ | ⟨-, d, hd, -, rfl⟩
  · exact h
  · have hparts : g.SameParts (g.planned d) := ⟨rfl, rfl, rfl⟩
    refine ⟨hparts.sound h.sound, fun plan hp => ?_⟩
    cases hp
    exact ⟨g, d, h.sound, hd, rfl, hparts.sameTopology⟩

end Current

/-! ## Calls -/

/-- What a graph can be asked to do. -/
inductive Call (U : Type) where
  | add (owner : Option UnitId) (body : Body U)
  | remove (node : UnitId)
  | connect (connection : Connection)
  | disconnect (connection : Connection)
  | compile
  | invalidate

/-- Whether a call is an edit. -/
def Call.isEdit : Call U → Bool
  | .compile | .invalidate => false
  | _ => true

/-- The graph after a call, as long as no rule is broken. -/
def after (g : Graph U) : Call U → Option (Graph U)
  | .add owner body => g.edited (Edit.add owner body)
  | .remove id => g.edited (Edit.remove id)
  | .connect c => g.edited (Edit.connect c)
  | .disconnect c => g.edited (Edit.disconnect c)
  | .compile => g.compile.toOption.map Prod.snd
  | .invalidate => some g.invalidate

/-- The graph after a run of calls. -/
def afterAll (g : Graph U) (calls : List (Call U)) : Option (Graph U) := calls.foldlM after g

/-- That a run of calls leads to a graph. -/
def Made (blockSize : Nat) (g : Graph U) : Prop :=
  ∃ calls, (empty blockSize : Graph U).afterAll calls = some g

theorem Current.after {c : Call U} (h : g.Current) (hc : g.after c = some g') : g'.Current := by
  cases c with
  | add owner body => exact h.edited (Edit.proper_add owner body) hc
  | remove id => exact h.edited (Edit.proper_remove id) hc
  | connect c => exact h.edited (Edit.proper_connect c) hc
  | disconnect c => exact h.edited (Edit.proper_disconnect c) hc
  | compile =>
    obtain ⟨⟨plan, g₁⟩, hr, rfl⟩ := Option.map_eq_some_iff.1 hc
    have hcompile : g.compile = .ok (plan, g₁) := by
      cases hcompile : g.compile <;> rw [hcompile] at hr <;> cases hr
      rfl
    exact h.compile hcompile
  | invalidate =>
    cases hc
    have hparts : g.SameParts g.invalidate := ⟨rfl, rfl, rfl⟩
    exact .of_plan_eq_none (hparts.sound h.sound) rfl

theorem Current.afterAll {calls : List (Call U)} (h : g.Current)
    (hc : g.afterAll calls = some g') : g'.Current := by
  induction calls generalizing g with
  | nil =>
    cases hc
    exact h
  | cons c calls ih =>
    obtain ⟨g₁, h₁, hc⟩ := Option.bind_eq_some_iff.1 hc
    exact ih (h.after h₁) hc

theorem Made.current {blockSize : Nat} (h : g.Made blockSize) : g.Current := by
  obtain ⟨calls, hcalls⟩ := h
  exact (Current.of_plan_eq_none (sound_empty blockSize) rfl).afterAll hcalls

/-! ## The calls that plan -/

omit [Device U] in
/-- An edit comes to the same on the same parts. -/
theorem SameParts.edited {α : Type} {change : Edit U α} (hc : change.Blind) (h : g.SameParts g')
    {g₁ : Graph U} (he : g.edited change = some g₁) :
    ∃ g₁', g'.edited change = some g₁' ∧ g₁.SameParts g₁' := by
  have hagrees := hc g g' h
  unfold Graph.edited at he ⊢
  generalize change g = r at hagrees he
  generalize change g' = r' at hagrees ⊢
  cases hagrees with
  | ok a hparts =>
    cases he
    exact ⟨_, rfl, hparts⟩
  | error f hparts =>
    cases f with
    | refused why =>
      cases he
      exact ⟨_, rfl, hparts⟩
    | broken f => cases he

theorem SameParts.after {c : Call U} (hedit : c.isEdit = true) (h : g.SameParts g')
    {g₁ : Graph U} (hc : g.after c = some g₁) :
    ∃ g₁', g'.after c = some g₁' ∧ g₁.SameParts g₁' := by
  cases c with
  | add owner body => exact h.edited (Edit.blind_add owner body) hc
  | remove id => exact h.edited (Edit.blind_remove id) hc
  | connect c => exact h.edited (Edit.blind_connect c) hc
  | disconnect c => exact h.edited (Edit.blind_disconnect c) hc
  | compile => cases hedit
  | invalidate => cases hedit

theorem sameParts_of_after {g g' : Graph U} {c : Call U} (hedit : c.isEdit = false) (hc : g.after c = some g') :
    g.SameParts g' := by
  cases c with
  | add | remove | connect | disconnect => cases hedit
  | compile =>
    obtain ⟨⟨plan, g₁⟩, hr, rfl⟩ := Option.map_eq_some_iff.1 hc
    cases hcompile : g.compile <;> rw [hcompile] at hr <;> cases hr
    rcases compile_cases hcompile with ⟨-, rfl⟩ | ⟨-, d, -, -, rfl⟩
    · exact .refl _
    · exact ⟨rfl, rfl, rfl⟩
  | invalidate =>
    cases hc
    exact ⟨rfl, rfl, rfl⟩

/-- A run of calls builds the same parts without the calls that plan. -/
theorem SameParts.afterAll {calls : List (Call U)} (h : g.SameParts g') {g₁ : Graph U}
    (hc : g.afterAll calls = some g₁) :
    ∃ g₁', g'.afterAll (calls.filter Call.isEdit) = some g₁' ∧ g₁.SameParts g₁' := by
  induction calls generalizing g g' with
  | nil =>
    cases hc
    exact ⟨g', rfl, h⟩
  | cons c calls ih =>
    obtain ⟨g₂, h₂, hc⟩ := Option.bind_eq_some_iff.1 hc
    cases hedit : c.isEdit with
    | true =>
      obtain ⟨g₂', h₂', hparts⟩ := h.after hedit h₂
      obtain ⟨g₁', h₁', hparts'⟩ := ih hparts hc
      refine ⟨g₁', ?_, hparts'⟩
      rw [List.filter_cons_of_pos hedit]
      exact Option.bind_eq_some_iff.2 ⟨g₂', h₂', h₁'⟩
    | false =>
      rw [List.filter_cons_of_neg (by simp [hedit])]
      exact ih ((sameParts_of_after hedit h₂).symm.trans h) hc

/-- Runs with the same edits build the same parts. -/
theorem sameParts_of_edits {blockSize : Nat} {calls calls' : List (Call U)}
    (hedits : calls.filter Call.isEdit = calls'.filter Call.isEdit)
    (h : (empty blockSize).afterAll calls = some g)
    (h' : (empty blockSize).afterAll calls' = some g') : g.SameParts g' := by
  obtain ⟨g₁, h₁, hparts⟩ := (SameParts.refl _).afterAll h
  obtain ⟨g₁', h₁', hparts'⟩ := (SameParts.refl _).afterAll h'
  rw [hedits, h₁'] at h₁
  cases h₁
  exact hparts.trans hparts'.symm

/-! ## Engines -/

/-- The graph of an engine keeps its topology while it works. -/
theorem Works.sameTopology {Q : Pool → Pool → Prop} (h : g.Works PlannedAlike Q g') :
    g.SameTopology g' where
  nodes x := by
    have hshape := h.shape.shape x
    rw [shape?, shape?] at hshape
    have hbodies := @h.bodies x
    revert hshape hbodies
    cases g.node? x <;> cases g'.node? x <;> intro hshape hbodies
    · exact .none
    · cases hshape
    · cases hshape
    · have hparts := Option.some.inj hshape
      exact .some ⟨hbodies rfl rfl, congrArg NodeShape.ports hparts,
        congrArg NodeShape.registration hparts, congrArg NodeShape.owner hparts,
        congrArg NodeShape.port hparts⟩
  streams x i := by simp only [streamSources, h.shape.connections, h.shape.kindOf]
  messages x i := by simp only [messageSources, h.shape.connections, h.shape.kindOf]
  outgoing x o := by rw [outgoing, outgoing, h.shape.connections]
  seated := h.names.seated

theorem Kept.current (h : g.Kept PlannedAlike) : g.Current where
  sound := h.sound
  plan plan hp := by
    obtain ⟨g₀, d, hg₀, hd, hplan, hworks⟩ := h.plan plan hp
    have hparts : g₀.SameParts (g₀.planned d) := ⟨rfl, rfl, rfl⟩
    exact ⟨g₀, d, hg₀, hd, hplan, hparts.sameTopology.trans hworks.sameTopology⟩

/-! ## What plans go by -/

/-- The steps and the bindings of a graph's plan go by its topology. They are the same for two graphs
of one topology, whatever calls have led to each; they are what planning with a fresh pool comes to;
and calls that plan, or give up the plan, change nothing about them wherever they stand in a run. The
same holds of the graphs of engines, as long as their units keep what planning looks at. -/
theorem layout_by_topology :
    (∀ {blockSize blockSize' : Nat} {g g' : Graph U}, g.Made blockSize → g'.Made blockSize' →
      g.SameTopology g' → g'.layout = g.layout) ∧
    (∀ {blockSize : Nat} {g : Graph U}, g.Made blockSize →
      g.layout = (g.renewed blockSize).layout) ∧
    (∀ {blockSize : Nat} {calls calls' : List (Call U)} {g g' : Graph U},
      calls.filter Call.isEdit = calls'.filter Call.isEdit →
      (empty blockSize).afterAll calls = some g → (empty blockSize).afterAll calls' = some g' →
      g'.layout = g.layout) ∧
    (Law (PlannedAlike (U := U)) → ∀ {settings settings' : Settings} {e e' : Engine U},
      Engine.Reachable settings e → Engine.Reachable settings' e' →
      e.graph.layout = (e.graph.renewed settings.blockSize).layout ∧
      (e.graph.SameTopology e'.graph → e'.graph.layout = e.graph.layout)) := by
  refine ⟨fun h h' htopology => ?_, fun h => ?_, fun hedits h h' => ?_,
    fun hlaw _ _ e e' h h' => ?_⟩
  · exact h.current.layout_eq_layout h'.current htopology
  · exact (h.current.layout_renewed _).symm
  · exact (Made.current ⟨_, h⟩).layout_eq_layout (Made.current ⟨_, h'⟩)
      (sameParts_of_edits hedits h h').sameTopology
  · have hcurrent : e.graph.Current := (Engine.kept_of_reachable hlaw h).current
    have hcurrent' : e'.graph.Current := (Engine.kept_of_reachable hlaw h').current
    exact ⟨(hcurrent.layout_renewed _).symm, hcurrent.layout_eq_layout hcurrent'⟩

/-- The catalogue keeps what planning looks at. -/
theorem plannedAlike : Law (PlannedAlike (U := CatalogueUnit)) :=
  CatalogueUnit.kindred.mono (fun _ _ h => ⟨h.alike.computes, h.sink, h.alike.source⟩)
    fun _ _ _ h h' => h.trans h'

deriving instance DecidableEq for Body, Node

/-- A node that is gone left the topology as it was, if it is the youngest and nobody has a name. -/
theorem sameTopology_of_push (hg : g.Sound) (hg' : g'.Sound) (hn : g'.nodes = g.nodes.push none)
    (hc : g'.connections = g.connections) (hr : g.names.roster = []) (hr' : g'.names.roster = []) :
    g.SameTopology g' := by
  have hnode : ∀ x, g'.node? x = g.node? x := by
    intro x
    rw [node?, node?, hn, Array.getElem?_push]
    split
    · next h => simp [h]
    · rfl
  have hunseated : ∀ {n : Names}, n.Sound → n.roster = [] → ∀ s, n.seated s = [] := by
    intro n hs hr s
    refine List.eq_nil_iff_forall_not_mem.2 fun x hx => ?_
    have := (Names.mem_roster hs).2 ⟨s, hx⟩
    rw [hr] at this
    cases this
  have hkind : ∀ c, g'.kindOf c = g.kindOf c := fun c => by rw [kindOf, kindOf, ports, ports, hnode]
  refine ⟨fun x => ?_, fun x i => ?_, fun x i => ?_, fun x o => ?_, fun s => ?_⟩
  · rw [hnode]
    exact (SameTopology.refl g).nodes x
  · simp only [streamSources, hc, hkind]
  · simp only [messageSources, hc, hkind]
  · rw [outgoing, outgoing, hc]
  · rw [hunseated hg.registered.names hr, hunseated hg'.registered.names hr']

/-- A unit is connected to another. -/
def direct : List (Call CatalogueUnit) :=
  [ .add none (.device (.hostInput ⟨1⟩)), .add none (.device (.hostOutput ⟨1⟩)),
    .connect ⟨⟨0⟩, 0, ⟨1⟩, 0⟩ ]

/-- A unit is connected to another after a detour, which has been planned and is gone. -/
def detour : List (Call CatalogueUnit) :=
  [ .add none (.device (.hostInput ⟨1⟩)), .add none (.device (.hostOutput ⟨1⟩)),
    .add none (.device (.hostInput ⟨1⟩)), .connect ⟨⟨0⟩, 0, ⟨1⟩, 0⟩, .connect ⟨⟨2⟩, 0, ⟨1⟩, 0⟩,
    .compile, .remove ⟨2⟩, .remove ⟨2⟩ ]

theorem layout_by_topology_detour :
    ∃ g g' g'' : Graph CatalogueUnit, (empty 8).afterAll direct = some g ∧
      (empty 8).afterAll detour = some g' ∧
      (empty 8).afterAll (.compile :: direct ++ [.compile, .invalidate]) = some g'' ∧
      g'.pool.size ≠ g.pool.size ∧ g'.layout = g.layout ∧ g'.layout = (g'.renewed 8).layout ∧
      g''.layout = g.layout ∧
      ∃ e : Engine CatalogueUnit, Engine.Reachable Engine.smallBlocks e ∧ e.graph.plan.isSome ∧
        e.graph.layout = (e.graph.renewed 8).layout := by
  obtain ⟨hdirect, hfresh, hruns, hengine⟩ := layout_by_topology (U := CatalogueUnit)
  have hcheck : ((empty 8).afterAll direct).any (fun g => ((empty 8).afterAll detour).any fun g' =>
      decide (g'.nodes = g.nodes.push none) && decide (g'.connections = g.connections) &&
      decide (g.names.roster = []) && decide (g'.names.roster = []) &&
      decide (g'.pool.size ≠ g.pool.size)) = true := by cbv
  have hextra : ((empty 8).afterAll
      (.compile :: direct ++ [.compile, .invalidate] : List (Call CatalogueUnit))).isSome = true := by
    cbv
  obtain ⟨g, hg, hcheck⟩ := (Option.any_eq_true ..).1 hcheck
  obtain ⟨g', hg', hcheck⟩ := (Option.any_eq_true ..).1 hcheck
  obtain ⟨g'', hg''⟩ := Option.isSome_iff_exists.1 hextra
  simp only [Bool.and_eq_true, decide_eq_true_eq] at hcheck
  obtain ⟨⟨⟨⟨hn, hc⟩, hr⟩, hr'⟩, hsize⟩ := hcheck
  have hedits : direct.filter Call.isEdit =
      (Call.compile :: direct ++ [Call.compile, .invalidate]).filter Call.isEdit := rfl
  have hmade : g.Made 8 := ⟨direct, hg⟩
  have hmade' : g'.Made 8 := ⟨detour, hg'⟩
  have htopology : g.SameTopology g' :=
    sameTopology_of_push hmade.current.sound hmade'.current.sound hn hc hr hr'
  obtain ⟨e, hroomy, hplan⟩ := Engine.exists_roomy Engine.smallBlocks
    [ .addUnit none (CatalogueUnit.constant ⟨1⟩), .addUnit none (.hostOutput ⟨1⟩),
      .connect ⟨⟨0⟩, 0, ⟨1⟩, 0⟩, .compile ]
    (fun e => e.graph.plan.isSome) (by cbv)
  refine ⟨g, g', g'', hg, hg', hg'', hsize, hdirect hmade hmade' htopology, hfresh hmade',
    hruns hedits hg hg'', e, hroomy.reachable, hplan, ?_⟩
  exact (hengine plannedAlike hroomy.reachable hroomy.reachable).1

end Graph
end Patchbay
