import Patchbay.Engine.Command
import Patchbay.Proofs.Engine.Step
import Patchbay.Proofs.Graph.Editing

/-!
# Engines that commands lead to

A command lets the engine's graph work, edits it, plans it, or plays its plan (`Turn`). Hence every
graph that commands lead to is sound, and its plan, if it has one, was made from the graph as it was
before it worked on (`Kept`, `kept_of_reachable`).
-/

namespace Patchbay

variable {U : Type} [Device U] {R : U → U → Prop}

namespace Names

theorem sameSeats_externals (n : Names) (externals : List Symbol) :
    n.SameSeats { n with externals } :=
  ⟨fun h => ⟨h.links, h.stores, h.receivers⟩, fun s => by cases s <;> rfl,
    fun s => by cases s <;> rfl⟩

theorem sameSeats_registerExternal (n : Names) (name : String) :
    n.SameSeats (n.registerExternal name) := by
  unfold registerExternal
  split
  · exact .refl n
  · exact n.sameSeats_externals _

end Names

/-! ## Graphs -/

/-- Whether the nodes and connections of a graph can be counted. -/
def Graph.HasRoom {U : Type} (g : Graph U) : Prop :=
  g.nodes.size + g.connections.length < halfWordSize

instance {U : Type} (g : Graph U) : Decidable g.HasRoom := inferInstanceAs (Decidable (_ < _))

omit [Device U] in
theorem Graph.SameShape.hasRoom {g g' : Graph U} (h : g.SameShape g') (hroom : g.HasRoom) :
    g'.HasRoom := by
  rw [HasRoom, h.size, h.connections]
  exact hroom

/-- The plan that a draft comes to. -/
def Draft.plan (d : Draft) : Plan where
  steps := d.steps
  bindings := d.bindings
  buffers := d.pool.size

namespace Graph

variable {g g' : Graph U}

/-- The graph with the plan and the pool of a draft. -/
def planned (g : Graph U) (d : Draft) : Graph U := { g with plan := some d.plan, pool := d.pool }

theorem compile_of_plan {plan : Plan} (h : g.plan = some plan) : g.compile = .ok (plan, g) := by
  rw [compile, h]

theorem compile_of_draft {d : Draft} (h : g.plan = none) (hd : g.fullDraft = .ok d) :
    g.compile = .ok (d.plan, g.planned d) := by
  rw [compile, h, hd]
  rfl

/-- A plan is the one that was there, or else it is a new one. -/
theorem compile_cases {plan : Plan} (h : g.compile = .ok (plan, g')) :
    g.plan = some plan ∧ g' = g ∨
    g.plan = none ∧ ∃ d, g.fullDraft = .ok d ∧ plan = d.plan ∧ g' = g.planned d := by
  cases hp : g.plan with
  | some p =>
    rw [compile_of_plan hp] at h
    cases h
    exact .inl ⟨rfl, rfl⟩
  | none =>
    rw [compile, hp] at h
    obtain ⟨d, hd, h⟩ := bind_eq_ok.1 h
    cases h
    exact .inr ⟨rfl, d, hd, rfl, rfl⟩

omit [Device U] in
/-- Edits aside, a graph stays sound. -/
theorem Works.sound {Q : Pool → Pool → Prop} (h : g.Works R Q g') (hg : g.Sound) : g'.Sound :=
  ⟨h.shape.wired hg.wired, h.shape.nested hg.nested, h.shape.registered h.names hg.registered⟩

omit [Device U] in
theorem works_names (hR : ∀ u, R u u) (g : Graph U) {names : Names}
    (h : g.names.SameSeats names) : g.Works R Eq { g with names } := by
  refine ⟨⟨rfl, fun _ => rfl, rfl⟩, fun hn hn' => ?_, h, rfl, rfl⟩
  have := hn.symm.trans hn'
  cases this
  exact .refl hR _

omit [Device U] in
theorem works_notices (hR : ∀ u, R u u) (g : Graph U) (notices : Array Notice) :
    g.Works R Eq { g with notices } := by
  refine ⟨⟨rfl, fun _ => rfl, rfl⟩, fun hn hn' => ?_, .refl _, rfl, rfl⟩
  have := hn.symm.trans hn'
  cases this
  exact .refl hR _

/-- That a plan was made from a graph, which has worked on since. -/
def Planned (R : U → U → Prop) (g : Graph U) (plan : Plan) : Prop :=
  ∃ (g₀ : Graph U) (d : Draft), g₀.Sound ∧ g₀.fullDraft = .ok d ∧ plan = d.plan ∧
    (g₀.planned d).Works R Pool.SameBooks g

/-- What holds of every graph that commands lead to. -/
structure Kept (R : U → U → Prop) (g : Graph U) : Prop where
  sound : g.Sound
  plan : ∀ plan, g.plan = some plan → g.Planned R plan

theorem Kept.of_plan_eq_none (h : g.Sound) (hp : g.plan = none) : g.Kept R :=
  ⟨h, fun _ h => by simp [hp] at h⟩

namespace Kept

variable (hR : Law R)
include hR

theorem works (h : g.Kept R) (hw : g.Works R Pool.SameBooks g') : g'.Kept R where
  sound := hw.sound h.sound
  plan p hp := by
    obtain ⟨g₀, d, h₀, hd, hplan, hw₀⟩ := h.plan p (hw.plan ▸ hp)
    exact ⟨g₀, d, h₀, hd, hplan, hw₀.trans hR.trans (fun _ _ _ h h' => h.trans h') hw⟩

/-- Planning leaves a plan that was made from the graph. -/
theorem planned {plan : Plan} (h : g.Kept R) (hc : g.compile = .ok (plan, g')) :
    g'.Planned R plan := by
  rcases compile_cases hc with ⟨hp, rfl⟩ | ⟨-, d, hd, hplan, rfl⟩
  · exact h.plan plan hp
  · exact ⟨g, d, h.sound, hd, hplan, .refl hR.refl Pool.SameBooks.refl _⟩

theorem compile {plan : Plan} (h : g.Kept R) (hc : g.compile = .ok (plan, g')) : g'.Kept R := by
  have hplanned := h.planned hR hc
  rcases compile_cases hc with ⟨-, rfl⟩ | ⟨-, d, -, rfl, rfl⟩
  · exact h
  · refine ⟨⟨h.sound.wired.of_sublist rfl (.refl _), h.sound.nested.of_nodes rfl,
      h.sound.registered.of_nodes rfl rfl⟩, fun p hp => ?_⟩
    cases hp
    exact hplanned

end Kept
end Graph

/-! ## Engines -/

namespace Engine

variable {e e' : Engine U}

theorem compile_eq_ok {plan : Plan} : Engine.compile e = .ok plan e' ↔
    ∃ g, e.graph.compile = .ok (plan, g) ∧ e' = { e with graph := g } := by
  rw [Engine.compile, run_get_bind, run_bind]
  cases e.graph.compile with
  | error f =>
    refine ⟨fun h => (by cases h), ?_⟩
    rintro ⟨_, h, -⟩
    cases h
  | ok r =>
    obtain ⟨p, g⟩ := r
    constructor
    · rintro ⟨⟩
      exact ⟨g, rfl, rfl⟩
    · rintro ⟨_, ⟨⟩, rfl⟩
      rfl

omit [Device U] in
/-- An edit that is accepted changes the graph, and what units are told in it is recorded. -/
theorem edit_eq_ok {α : Type} {change : Edit U α} {a : α} :
    edit change e = .ok a e' ↔ ∃ g, change e.graph = .ok a g ∧ e' = e.withGraph g := by
  unfold edit
  cases change e.graph with
  | error how g =>
    refine ⟨fun h => (by cases h), ?_⟩
    rintro ⟨_, h, -⟩
    cases h
  | ok result g =>
    constructor
    · rintro ⟨⟩
      exact ⟨g, rfl, rfl⟩
    · rintro ⟨_, ⟨⟩, rfl⟩
      rfl

/-- What adding a unit does to the graph. -/
theorem graph_of_addUnit {owner : Option UnitId} {unit : U} {x : UnitId}
    (h : perform (.addUnit owner unit) e = .ok (.added x) e') :
    ∃ g, Edit.add owner (.device unit) e.graph = .ok x g ∧ e' = e.withGraph g := by
  obtain ⟨id, hedit, heq⟩ := run_map_eq_ok.1 h
  cases heq
  exact edit_eq_ok.1 hedit

/-- What removing a node does. -/
theorem perform_remove_eq_ok {id : UnitId} {reply : Reply U} :
    perform (.remove id) e = .ok reply e' ↔ ∃ body g, Edit.remove id e.graph = .ok body g ∧
      reply = .removed body ∧
      e' = { e.withGraph g with
        queue := (e.graph.descendants id).foldl Queue.removeUnit e.queue } := by
  show (Reply.removed <$> remove id) e = _ ↔ _
  rw [run_map_eq_ok, remove, run_get_bind]
  constructor
  · rintro ⟨_, hremove, rfl⟩
    obtain ⟨body, _, hedit, hremove⟩ := run_bind_eq_ok.1 hremove
    obtain ⟨g, hg, rfl⟩ := edit_eq_ok.1 hedit
    cases hremove
    exact ⟨_, g, hg, rfl, rfl⟩
  · rintro ⟨body, g, hg, rfl, rfl⟩
    refine ⟨body, ?_, rfl⟩
    show (edit (Edit.remove id) >>= _) e = _
    rw [run_bind, edit_eq_ok.2 ⟨g, hg, rfl⟩]
    rfl

/-- Runs some steps of a plan. -/
def play (plan : Plan) (steps : List Step) : Work U PUnit := forM steps (runStep plan)

theorem forM_steps (plan : Plan) :
    plan.steps.forM (runStep (U := U) plan) = play plan plan.steps.toList :=
  List.forM_toArray plan.steps.toList (runStep plan)

theorem play_append (plan : Plan) (pre post : List Step) :
    play (U := U) plan (pre ++ post) = (play plan pre >>= fun _ => play plan post) :=
  List.forM_append

/-- Draining ends when nothing is due. -/
theorem drain_of_drainOne?_eq_none {stop : Float} (rounds : Nat) (h : e.drainOne? stop = none) :
    drain stop (rounds + 1) e = .ok ⟨⟩ e := by
  rw [drain, run_get_bind]
  simp only [h]
  rfl

/-- Nothing is due when nothing waits. -/
theorem drain_of_events_eq_nil (stop : Float) (h : e.queue.events = []) :
    drain stop roundLimit e = .ok ⟨⟩ e := by
  have hnone : e.drainOne? stop = none := by
    simp [drainOne?, Queue.popBefore?, h]
  exact drain_of_drainOne?_eq_none (roundLimit - 1) hnone

/-- A block: what is due is handed back, a plan is made if there is none, and its steps are run. -/
theorem process_eq_ok {input samples : Samples} {outLength : Nat}
    (h : process input outLength e = .ok samples e') :
    ∃ drained plan planned ended,
      drain e.blockEnd roundLimit (openBlock input e) = .ok ⟨⟩ drained ∧
      compile drained = .ok plan planned ∧
      play plan plan.steps.toList planned = .ok ⟨⟩ ended ∧
      e' = { ended with blockStart := e.blockEnd } := by
  obtain ⟨_, e₁, hroom, hblock⟩ := run_bind_eq_ok.1 h
  have he : e₁ = e := by
    cases hr : checkRoom outLength sampleBytes with
    | error f =>
      rw [hr] at hroom
      cases hroom
    | ok a =>
      rw [hr] at hroom
      cases hroom
      rfl
  rw [he, run_get_bind, run_modify_bind] at hblock
  obtain ⟨_, drained, hdrain, hblock⟩ := run_bind_eq_ok.1 hblock
  obtain ⟨plan, planned, hplan, hblock⟩ := run_bind_eq_ok.1 hblock
  obtain ⟨_, ended, hplay, hblock⟩ := run_bind_eq_ok.1 hblock
  cases hblock
  rw [forM_steps] at hplay
  exact ⟨drained, plan, planned, ended, hdrain, hplan, hplay, rfl⟩

/-- If each part of a block succeeds, so does the block. -/
theorem process_of_play {input : Samples} {outLength : Nat} {plan : Plan}
    {drained planned ended : Engine U} (hlength : outLength * sampleBytes < addressable)
    (hdrain : drain e.blockEnd roundLimit (openBlock input e) = .ok ⟨⟩ drained)
    (hplan : compile drained = .ok plan planned)
    (hplay : play plan plan.steps.toList planned = .ok ⟨⟩ ended) :
    process input outLength e =
      .ok (fit ended.hostOutput outLength) { ended with blockStart := e.blockEnd } := by
  have hroom : checkRoom outLength sampleBytes = .ok ⟨⟩ := if_pos hlength
  have hstart : (Work.of (.ok ⟨⟩) : Work U PUnit) e = .ok ⟨⟩ e := rfl
  rw [process, hroom, run_bind, hstart]
  dsimp only
  rw [run_get_bind, run_modify_bind, run_bind, hdrain]
  dsimp only
  rw [run_bind, hplan]
  dsimp only
  rw [run_bind, forM_steps, hplay]
  rfl

/-- What carrying out a command comes to for the graph. -/
inductive Turn (R : U → U → Prop) (e e' : Engine U) : Prop where
  /-- It works on. -/
  | works (h : e.graph.Works R Eq e'.graph)
  /-- It is edited. -/
  | edited (sound : e'.graph.Sound) (plan : e'.graph.plan = none)
    (pool : e'.graph.pool = e.graph.pool)
  /-- It is planned. -/
  | planned (plan : Plan) (h : e.graph.compile = .ok (plan, e'.graph))
  /-- A block of it is computed. -/
  | played (opened planned : Engine U) (plan : Plan) (ended : Engine U)
    (opens : e.graph.Works R Eq opened.graph) (plans : compile opened = .ok plan planned)
    (plays : play plan plan.steps.toList planned = .ok ⟨⟩ ended)
    (graph : e'.graph = ended.graph)

section Turns

variable (hR : Law R)
include hR

theorem works_drainOne? {stop : Float} (h : e.drainOne? stop = some e') : e.Works R Eq e' := by
  unfold drainOne? at h
  split at h
  · cases h
  · next event queue _ =>
    cases h
    refine works_trans hR ?_ (works_handBack hR _ _)
    exact works_of_graph hR rfl rfl rfl rfl

theorem works_drain (stop : Float) (rounds : Nat) (e : Engine U) :
    Yields (fun f e' => f = .endless ∧ e.Works R Eq e') (fun _ e' => e.Works R Eq e')
      (drain stop rounds e) := by
  induction rounds generalizing e with
  | zero => exact ⟨rfl, works_refl hR e⟩
  | succ rounds ih =>
    rw [drain, run_get_bind]
    cases h : e.drainOne? stop with
    | none => exact works_refl hR e
    | some e₁ =>
      have h₁ := works_drainOne? hR h
      have := ih e₁
      dsimp only
      rw [run_set_bind]
      cases hr : drain stop rounds e₁ with
      | ok a e₂ =>
        rw [hr] at this
        exact works_trans hR h₁ this
      | error f e₂ =>
        rw [hr] at this
        exact ⟨this.1, works_trans hR h₁ this.2⟩

theorem works_openBlock (input : Samples) (e : Engine U) :
    e.graph.Works R Eq (openBlock input e).graph :=
  e.graph.works_names hR.refl (Names.sameSeats_clearBuses _)

/-- The graph works on until all that is due has been handed back. -/
theorem works_opened {input : Samples} {stop : Float} {rounds : Nat}
    (h : drain stop rounds (openBlock input e) = .ok ⟨⟩ e') : e.graph.Works R Eq e'.graph :=
  (works_openBlock hR input e).trans hR.trans (fun _ _ _ h h' => h.trans h')
    ((works_drain hR stop rounds _).of_ok h).graph

end Turns

/-! ## Commands -/

/-- That a change takes a turn, also when it is refused. -/
abbrev Turns {α : Type} (R : U → U → Prop) (e : Engine U)
    (r : EStateM.Result Failure (Engine U) α) : Prop :=
  Yields (fun f e' => ∀ why, f = .refused why → Turn R e e') (fun _ e' => Turn R e e') r

theorem Turns.map {α β : Type} {f : α → β} {change : Change U α} (h : Turns R e (change e)) :
    Turns R e ((f <$> change) e) := by
  show Turns R e (EStateM.map f change e)
  unfold EStateM.map
  cases hr : change e with
  | ok a e₁ =>
    rw [hr] at h
    exact h
  | error how e₁ =>
    rw [hr] at h
    exact h

theorem Turn.of_graph (h : Turn R e e') {e'' : Engine U} (hg : e''.graph = e'.graph) :
    Turn R e e'' := by
  cases h with
  | works h => exact .works (hg ▸ h)
  | edited sound plan pool => exact .edited (hg ▸ sound) (hg ▸ plan) (hg ▸ pool)
  | planned plan h => exact .planned plan (by rw [hg]; exact h)
  | played opened planned plan ended opens plans plays graph =>
    exact .played opened planned plan ended opens plans plays (hg.trans graph)

section Commands

variable (hR : Law R)
include hR

theorem turn_refl (e : Engine U) : Turn R e e := .works (.refl hR.refl (fun _ => rfl) _)

theorem turns_refuse {α : Type} (e : Engine U) (why : GraphError) :
    Turns R e ((refuse why : Change U α) e) := fun _ _ => turn_refl hR e

/-- An edit that is accepted changes the graph; one that is refused does not. -/
theorem turns_edit {α : Type} {change : Edit U α} (hc : change.Proper) (hs : e.graph.Sound) :
    Turns R e (edit change e) := by
  unfold edit
  cases hr : change e.graph with
  | ok a g =>
    obtain ⟨hplan, hpool⟩ := hc.outdates hr
    have hg := hc.sound hs hr
    exact .edited ⟨hg.wired.of_sublist rfl (.refl _), hg.nested.of_nodes rfl,
      hg.registered.of_nodes rfl rfl⟩ hplan hpool
  | error how g =>
    rintro why rfl
    rw [hc.refused hr]
    exact .works (e.graph.works_notices hR.refl _)

theorem turns_remove (hs : e.graph.Sound) (id : UnitId) : Turns R e (remove id e) := by
  unfold remove
  rw [run_get_bind]
  refine (turns_edit hR (Edit.proper_remove id) hs).bind fun body e₁ h => ?_
  exact h.of_graph rfl

theorem turns_schedule (e : Engine U) (target : UnitId) (outlet : Nat) (message : Message) :
    Turns R e (schedule target outlet message e) := by
  unfold schedule
  rw [run_get_bind]
  cases e.graph.node? target with
  | none => exact turns_refuse hR e _
  | some n =>
    by_cases h : n.ports.outlets ≤ outlet
    · simp only [h, if_true]
      exact turns_refuse hR e _
    · simp only [h, if_false]
      exact (turn_refl hR e).of_graph rfl

theorem turns_sendTo (e : Engine U) (name : String) (message : Message) :
    Turns R e (sendTo name message e) := by
  refine (turn_refl hR e).of_graph ?_
  split <;> rfl

/-- Names that the host listens to are no business of the graph's. -/
theorem turn_names (e : Engine U) {names : Names} (h : e.graph.names.SameSeats names) :
    Turn R e { e with graph := { e.graph with names } } :=
  .works (e.graph.works_names hR.refl h)

omit hR in
theorem turns_compile (e : Engine U) : Turns R e (ofWork compile e) := by
  unfold ofWork
  cases h : compile e with
  | error f e₁ => exact fun _ h => by cases h
  | ok plan e₁ =>
    obtain ⟨g, hg, rfl⟩ := compile_eq_ok.1 h
    exact .planned plan hg

theorem turns_process (e : Engine U) (input : Samples) (outLength : Nat) :
    Turns R e (ofWork (process input outLength) e) := by
  unfold ofWork
  cases hp : process input outLength e with
  | error f e₁ => exact fun _ h => by cases h
  | ok samples e₁ =>
    obtain ⟨opened, plan, planned, ended, hdrain, hplan, hplay, rfl⟩ := process_eq_ok hp
    exact .played opened planned plan ended (works_opened hR hdrain) hplan hplay rfl

theorem turns_perform (hs : e.graph.Sound) (c : Command U) : Turns R e (perform c e) := by
  cases c with
  | addUnit owner unit => exact (turns_edit hR (Edit.proper_add ..) hs).map
  | addSubgraph owner => exact (turns_edit hR (Edit.proper_add ..) hs).map
  | remove node => exact (turns_remove hR hs node).map
  | connect c => exact (turns_edit hR (Edit.proper_connect c) hs).map
  | disconnect c =>
    exact (turns_edit hR (Edit.proper_disconnect c) hs).bind fun _ _ h => h
  | schedule target outlet message => exact (turns_schedule hR e target outlet message).map
  | cancel target outlet event => exact (turn_refl hR e).of_graph rfl
  | sendTo name message => exact (turns_sendTo hR e name message).map
  | registerExternal name => exact turn_names hR e (Names.sameSeats_registerExternal _ name)
  | unregisterExternal name => exact turn_names hR e (Names.sameSeats_externals _ _)
  | takeExternal => exact (turn_refl hR e).of_graph rfl
  | compile => exact (turns_compile e).map
  | process input outLength => exact (turns_process hR e input outLength).map

/-- What a command comes to for the graph. -/
theorem turn_of_after {c : Command U} (hs : e.graph.Sound) (h : e.after c = some e') :
    Turn R e e' := by
  have ht := turns_perform hR hs c
  unfold after at h
  cases hr : perform c e with
  | ok reply e₁ =>
    rw [hr] at ht h
    cases h
    exact ht
  | error how e₁ =>
    rw [hr] at ht h
    cases how with
    | refused why =>
      cases h
      exact ht why rfl
    | broken f => cases h

theorem play_works (plan : Plan) (steps : List Step) {e : Engine U}
    (h : play plan steps e = .ok ⟨⟩ e') : e.Works R Pool.SameBooks e' := by
  induction steps generalizing e with
  | nil =>
    cases h
    exact (works_refl hR _).sameBooks
  | cons s steps ih =>
    rw [play, List.forM_cons] at h
    obtain ⟨_, e₁, hs, h⟩ := run_bind_eq_ok.1 h
    exact (runStep_works hR plan s hs).trans_sameBooks hR.trans (ih h)

theorem Turn.kept (h : Turn R e e') (hk : e.graph.Kept R) : e'.graph.Kept R := by
  cases h with
  | works h => exact hk.works hR (h.mono .of_eq)
  | edited sound plan pool => exact .of_plan_eq_none sound plan
  | planned plan h => exact hk.compile hR h
  | played opened planned plan ended opens plans plays graph =>
    obtain ⟨g, hg, rfl⟩ := compile_eq_ok.1 plans
    rw [graph]
    have hplanned := (hk.works hR (opens.mono .of_eq)).compile hR hg
    exact hplanned.works hR (play_works hR plan _ plays).graph

end Commands

omit [Device U] in
/-- A new engine has an empty graph. -/
theorem graph_of_new {settings : Settings} (h : Engine.new settings = .ok e) :
    e.graph = .empty settings.blockSize := by
  obtain ⟨_, -, h⟩ := bind_eq_ok.1 h
  obtain ⟨_, -, h⟩ := bind_eq_ok.1 h
  obtain ⟨_, -, h⟩ := bind_eq_ok.1 h
  cases h
  rfl

theorem kept_of_new {settings : Settings} (h : Engine.new settings = .ok e) : e.graph.Kept R := by
  rw [graph_of_new h]
  exact .of_plan_eq_none (Graph.sound_empty _) rfl

/-- Every graph that commands lead to is sound, and so is its plan. -/
theorem kept_of_reachable (hR : Law R) {settings : Settings} (h : Reachable settings e) :
    e.graph.Kept R := by
  induction h with
  | start hnew => exact kept_of_new hnew
  | step _ hafter ih => exact (turn_of_after hR ih.sound hafter).kept hR ih

/-! ## Runs -/

/-- The engines that commands lead to from a new one, as long as nodes and connections can be
counted. -/
inductive Roomy (settings : Settings) : Engine U → Prop
  | start {e : Engine U} : Engine.new settings = .ok e → Roomy settings e
  | step {e e' : Engine U} {c : Command U} : Roomy settings e → e.graph.HasRoom →
      e.after c = some e' → Roomy settings e'

theorem Roomy.reachable {settings : Settings} (h : Roomy settings e) : Reachable settings e := by
  induction h with
  | start hnew => exact .start hnew
  | step _ _ hafter ih => exact .step ih hafter

/-- The engine that a list of commands leads to from a new one, as long as there is room. -/
def build (settings : Settings) (commands : List (Command U)) : Option (Engine U) :=
  (Engine.new settings).toOption.bind fun e =>
    commands.foldlM (fun e c => if e.graph.HasRoom then e.after c else none) e

/-- What holds of a new engine, and is kept by each of a list of commands, holds of the engine that
they lead to. -/
theorem build_induction {settings : Settings} {commands : List (Command U)} {P : Engine U → Prop}
    (start : ∀ e, Engine.new settings = .ok e → P e)
    (step : ∀ c ∈ commands, ∀ e e', P e → e.graph.HasRoom → e.after c = some e' → P e')
    (h : build settings commands = some e) : P e := by
  have hfold : ∀ (commands' : List (Command U)) (e₀ : Engine U), (∀ c ∈ commands', c ∈ commands) →
      P e₀ → commands'.foldlM (fun e c => if e.graph.HasRoom then e.after c else none) e₀ = some e →
      P e := by
    intro commands'
    induction commands' with
    | nil =>
      rintro e₀ - h₀ ⟨⟩
      exact h₀
    | cons c rest ih =>
      intro e₀ hsub h₀ h
      rw [List.foldlM_cons] at h
      obtain ⟨e₁, h₁, h⟩ := Option.bind_eq_some_iff.1 h
      by_cases hroom : e₀.graph.HasRoom
      · rw [if_pos hroom] at h₁
        have hc := hsub c List.mem_cons_self
        exact ih e₁ (fun c hc => hsub c (List.mem_cons_of_mem _ hc)) (step c hc e₀ e₁ h₀ hroom h₁) h
      · rw [if_neg hroom] at h₁
        cases h₁
  obtain ⟨e₀, h₀, h⟩ := Option.bind_eq_some_iff.1 h
  refine hfold commands e₀ (fun _ h => h) (start e₀ ?_) h
  cases hnew : Engine.new settings with
  | error f =>
    rw [hnew] at h₀
    cases h₀
  | ok e₁ =>
    rw [hnew] at h₀
    cases h₀
    rfl

theorem roomy_of_build {settings : Settings} {commands : List (Command U)}
    (h : build settings commands = some e) : Roomy settings e :=
  build_induction (fun _ hnew => .start hnew) (fun _ _ _ _ hr hroom hafter => hr.step hroom hafter) h

/-- What a run with room finds can be found. -/
theorem exists_roomy (settings : Settings) (commands : List (Command U)) (p : Engine U → Bool)
    (h : (build settings commands).any p = true) : ∃ e, Roomy settings e ∧ p e = true := by
  obtain ⟨e, he, hp⟩ := (Option.any_eq_true ..).1 h
  exact ⟨e, roomy_of_build he, hp⟩

end Engine
end Patchbay
