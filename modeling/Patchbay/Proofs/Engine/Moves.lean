import Patchbay.Proofs.Engine.Cascade
import Patchbay.Proofs.Engine.Conservation

/-!
# Moves

All that an engine does while it computes a block is a row of small **moves**: a unit receives a
message or keeps it for its step, an event falls due, a unit computes a piece, and so on. So what each
move keeps is kept by draining, by the steps of a plan and by whole blocks. A move that belongs to the
step of a unit names that unit, and what is said of a step may rely on `own`, the units whose steps
are under way.

Between blocks an engine is changed by **deeds**, one for each kind of command.
-/

namespace Patchbay

variable {U : Type} [Device U]

namespace Engine

/-! ## Cascades as moves -/

/-- One thing that happens while messages are delivered. -/
inductive Ripple (e : Engine U) : Engine U → Prop
  | report (r : Report) : Ripple e (e.record (.reported r))
  | collect (name : Symbol) (message : Message) :
      Ripple e ({ e with external := e.external.push (name, message) }.record
        (.collected name message))
  | defer {target : UnitId} {n : Node U} {unit : U} (inlet : Nat) (message : Message) :
      e.graph.node? target = some n → n.body = .device unit → Device.computes unit = true →
      Ripple e (e.defer target inlet message)
  | receive {target : UnitId} {n : Node U} {unit : U} (inlet : Nat) (message : Message) :
      e.graph.node? target = some n → n.body = .device unit → Device.computes unit = false →
      Ripple e (e.received target unit inlet message)

/-- One thing that happens while a block is computed. -/
inductive Move (own : UnitId → Prop) (e : Engine U) : Engine U → Prop
  | ripple {e' : Engine U} : Ripple e e' → Move own e e'
  /-- An event falls due. -/
  | fall {stop : Float} {event : Event} {queue : Queue} :
      e.queue.popBefore? stop = some (event, queue) →
      Move own e ({ e with queue }.record (.fellDue (e.onTime event)))
  /-- A unit answers an event of its own. -/
  | emit {id : UnitId} {n : Node U} {unit : U} (outlet : Nat) (message : Message) :
      e.graph.node? id = some n → n.body = .device unit →
      Move own e (e.reactQuietly id unit (Device.emit unit outlet message (e.surroundings id)))
  /-- Samples are moved between the buffers and a unit, or mixed. -/
  | pool (pool : Pool) : Move own e (e.withPool pool)
  /-- A unit takes the next message that waits for its step. -/
  | take {id : UnitId} {next : Pending} {e' : Engine U} : own id →
      e.nextPending? id = some (next, e') → Move own e e'
  /-- A unit computes a piece of its block. -/
  | compute {id : UnitId} {n : Node U} {unit unit' : U} {ins : Inputs} {outlets : Array Samples}
      {outs : Outputs} {first last : Nat} : own id →
      e.graph.node? id = some n → n.body = .device unit →
      Device.process unit ins ((e.record (.computed id first last)).outputs n outlets) first last =
        .ok (unit', outs) →
      Move own e ((e.record (.computed id first last)).afterCompute id n.handle unit' outs)
  /-- A unit receives a message in its step. -/
  | receive {id : UnitId} {n : Node U} {unit : U} (inlet : Nat) (message : Message) : own id →
      e.graph.node? id = some n → n.body = .device unit →
      Move own e (e.received id unit inlet message)
  /-- A unit has no more messages that wait. -/
  | calm {id : UnitId} : own id → Move own e (e.modifyNode id fun n => { n with pace := .free })

/-- What a row of moves leads to. -/
abbrev Moves (own : UnitId → Prop) : Engine U → Engine U → Prop := Relation.ReflTransGen (Move own)

/-- One thing that happens in the step of a plan: any move but that an event falls due, or that a unit
answers one of its own. -/
inductive Stride (own : UnitId → Prop) (e : Engine U) : Engine U → Prop
  | ripple {e' : Engine U} : Ripple e e' → Stride own e e'
  | pool (pool : Pool) : Stride own e (e.withPool pool)
  | take {id : UnitId} {next : Pending} {e' : Engine U} : own id →
      e.nextPending? id = some (next, e') → Stride own e e'
  | compute {id : UnitId} {n : Node U} {unit unit' : U} {ins : Inputs} {outlets : Array Samples}
      {outs : Outputs} {first last : Nat} : own id →
      e.graph.node? id = some n → n.body = .device unit →
      Device.process unit ins ((e.record (.computed id first last)).outputs n outlets) first last =
        .ok (unit', outs) →
      Stride own e ((e.record (.computed id first last)).afterCompute id n.handle unit' outs)
  | receive {id : UnitId} {n : Node U} {unit : U} (inlet : Nat) (message : Message) : own id →
      e.graph.node? id = some n → n.body = .device unit →
      Stride own e (e.received id unit inlet message)
  | calm {id : UnitId} : own id → Stride own e (e.modifyNode id fun n => { n with pace := .free })

/-- What a row of strides leads to. -/
abbrev Strides (own : UnitId → Prop) : Engine U → Engine U → Prop :=
  Relation.ReflTransGen (Stride own)

theorem Stride.move {own : UnitId → Prop} {e e' : Engine U} (h : Stride own e e') : Move own e e' := by
  cases h with
  | ripple hr => exact .ripple hr
  | pool pool => exact .pool pool
  | take ho hnext => exact .take ho hnext
  | compute ho hn hu hp => exact .compute ho hn hu hp
  | receive inlet message ho hn hu => exact .receive inlet message ho hn hu
  | calm ho => exact .calm ho

theorem Strides.moves {own : UnitId → Prop} {e e' : Engine U} (h : Strides own e e') : Moves own e e' :=
  Relation.ReflTransGen.mono (fun _ _ => Stride.move) _ _ h

theorem Stride.mono {own own' : UnitId → Prop} (h : ∀ id, own id → own' id) {e e' : Engine U}
    (hm : Stride own e e') : Stride own' e e' := by
  cases hm with
  | ripple hr => exact .ripple hr
  | pool pool => exact .pool pool
  | take ho hnext => exact .take (h _ ho) hnext
  | compute ho hn hu hp => exact .compute (h _ ho) hn hu hp
  | receive inlet message ho hn hu => exact .receive inlet message (h _ ho) hn hu
  | calm ho => exact .calm (h _ ho)

theorem Strides.mono {own own' : UnitId → Prop} (h : ∀ id, own id → own' id) {e e' : Engine U}
    (hm : Strides own e e') : Strides own' e e' :=
  Relation.ReflTransGen.mono (fun _ _ => Stride.mono h) _ _ hm

/-- What each move keeps, a row of moves keeps. -/
theorem Moves.keeps {own : UnitId → Prop} {P : Engine U → Prop}
    (h : ∀ e e', Move own e e' → P e → P e') {e e' : Engine U} (hm : Moves own e e') (he : P e) :
    P e' := by
  induction hm with
  | refl => exact he
  | tail _ hstep ih => exact h _ _ hstep ih

/-- Cascades are rows of strides. -/
theorem Runs.strides (own : UnitId → Prop) {depth : Nat} {errands : List Errand} {e e' : Engine U}
    {trace : Trace} (h : Runs depth errands e trace e') : Strides own e e' := by
  induction h with
  | done => exact .refl
  | cut _ _ ih => exact .head (.ripple (.report _)) ih
  | gone _ _ _ ih => exact ih
  | pass _ _ _ _ _ ihin ih => exact ihin.trans ih
  | wait _ hn _ hu hc _ ih => exact .head (.ripple (.defer _ _ hn hu hc)) ih
  | receive _ hn _ hu hc _ _ ihin ih =>
    exact .head (.ripple (.receive _ _ hn hu hc)) (ihin.trans ih)
  | leave _ _ ihin ih => exact ihin.trans ih
  | collect _ _ _ ihin ih => exact .head (.ripple (.collect _ _)) (ihin.trans ih)
  | unheard _ _ _ ih => exact .head (.ripple (.report _)) ih
  | call _ _ _ _ ihin ih => exact ihin.trans ih

theorem strides_runAll (own : UnitId → Prop) (depth : Nat) (errands : List Errand) (e : Engine U) :
    Strides own e (runAll depth errands e) := by
  obtain ⟨trace, h⟩ := exists_runs depth errands e
  exact h.strides own

/-! ## Draining -/

theorem moves_handBack (own : UnitId → Prop) (event : Event) (e : Engine U) :
    Moves own e (handBack event e) := by
  obtain ⟨trace, h⟩ := exists_handsBack event e
  generalize handBack event e = e' at h
  cases h with
  | gone hn => exact .refl
  | subgraph _ _ hrun => exact (hrun.strides own).moves
  | unit hn hu hrun => exact .head (.emit _ _ hn hu) (hrun.strides own).moves

/-- The first event that is due is handed back. -/
theorem drainOne?_eq_some {stop : Float} {m m' : Engine U} (h : m.drainOne? stop = some m') :
    ∃ event queue trace, m.queue.popBefore? stop = some (event, queue) ∧
      HandsBack (m.onTime event) ({ m with queue }.record (.fellDue (m.onTime event))) trace m' ∧
      m'.journal.toList =
        m.journal.toList ++ .fellDue (m.onTime event) :: trace.map Prod.snd := by
  unfold drainOne? at h
  split at h
  · cases h
  · next event queue hpop =>
    cases h
    obtain ⟨trace, hback⟩ := exists_handsBack (m.onTime event)
      ({ m with queue }.record (.fellDue (m.onTime event)))
    refine ⟨event, queue, trace, hpop, hback, ?_⟩
    rw [hback.journal]
    simp [record]

theorem moves_drainOne? (own : UnitId → Prop) {stop : Float} {e e' : Engine U}
    (h : e.drainOne? stop = some e') : Moves own e e' := by
  unfold drainOne? at h
  split at h
  · cases h
  · next event queue hpop =>
    cases h
    exact .head (.fall hpop) (moves_handBack own _ _)

theorem moves_drain (own : UnitId → Prop) {stop : Float} {rounds : Nat} {e e' : Engine U}
    (h : drain stop rounds e = .ok ⟨⟩ e') : Moves own e e' := by
  induction rounds generalizing e with
  | zero => cases h
  | succ rounds ih =>
    rw [drain, run_get_bind] at h
    cases hone : e.drainOne? stop with
    | none =>
      simp only [hone] at h
      cases h
      exact .refl
    | some e₁ =>
      simp only [hone] at h
      exact (moves_drainOne? own hone).trans (ih h)

/-! ## Steps -/

section Steps

variable {own : UnitId → Prop} {id : UnitId} (ho : own id) {e e' : Engine U}
include ho

theorem strides_compute {read : Engine U → Inputs} {stop : Nat} {p p' : Progress}
    (h : compute read id stop p e = .ok p' e') : Strides own e e' := by
  rw [compute_eq] at h
  split at h
  · cases h
    exact .refl
  · next n hn =>
    split at h
    · cases h
      exact .refl
    · next unit hu =>
      split at h
      · cases h
      · next unit' outs hp =>
        cases h
        exact .single (.compute ho hn hu hp)

theorem strides_computeUpTo {read : Engine U → Inputs} {stop : Nat} {p p' : Progress}
    (h : computeUpTo read id stop p e = .ok p' e') : Strides own e e' := by
  unfold computeUpTo at h
  split at h
  · exact strides_compute ho h
  · cases h
    exact .refl

omit ho in
/-- A unit receives a message in its step, and then all that it sends is dispatched. -/
theorem receivePending_eq {n : Node U} {unit : U} (hn : e.graph.node? id = some n)
    (hu : n.body = .device unit) (next : Pending) :
    e.receivePending id next =
      runAll 1 ((e.answers id unit next.inlet next.message).map .dispatch)
        (e.received id unit next.inlet next.message) := by
  rw [receivePending, hn, Option.map_some, hu, runAll_dispatch]
  exact flush_receive (unposted_deliver _) id unit next.inlet next.message e

theorem strides_receivePending (next : Pending) : Strides own e (e.receivePending id next) := by
  cases hn : e.graph.node? id with
  | none =>
    rw [receivePending, hn]
    exact .refl
  | some n =>
    cases hu : n.body with
    | subgraph => rw [receivePending, hn, Option.map_some, hu]
    | device unit =>
      rw [receivePending_eq hn hu]
      exact .head (.receive _ _ ho hn hu) (strides_runAll own _ _ _)

theorem strides_computePieces {read : Engine U → Inputs} {rounds : Nat} {p p' : Progress}
    (h : computePieces read id rounds p e = .ok p' e') : Strides own e e' := by
  induction rounds generalizing p e with
  | zero => cases h
  | succ rounds ih =>
    rw [computePieces, run_get_bind] at h
    cases hnext : e.nextPending? id with
    | none =>
      simp only [hnext] at h
      cases h
      exact .refl
    | some r =>
      obtain ⟨next, e₁⟩ := r
      simp only [hnext] at h
      rw [run_set_bind] at h
      obtain ⟨p₂, e₂, hup, h⟩ := run_bind_eq_ok.1 h
      rw [run_modify_bind] at h
      have htake : Strides own e e₁ := .single (.take ho hnext)
      exact ((htake.trans (strides_computeUpTo ho hup)).trans (strides_receivePending ho next)).trans
        (ih h)

theorem strides_computeSamples {read : Engine U → Inputs} {n : Node U} {p p' : Progress}
    (h : computeSamples read id n p e = .ok p' e') : Strides own e e' := by
  rw [computeSamples, run_get_bind] at h
  split at h
  · exact strides_compute ho h
  · obtain ⟨p₁, e₁, hpieces, h⟩ := run_bind_eq_ok.1 h
    obtain ⟨p₂, e₂, hup, h⟩ := run_bind_eq_ok.1 h
    cases h
    exact ((strides_computePieces ho hpieces).trans (strides_computeUpTo ho hup)).tail (.calm ho)

end Steps

omit [Device U] in
/-- Work on the buffers changes nothing else. -/
theorem eq_withPool_of_onPool {α : Type} {f : Pool → Except Fault (α × Pool)} {a : α}
    {e e' : Engine U} (h : onPool f e = .ok a e') : ∃ pool, e' = e.withPool pool := by
  rw [onPool_eq] at h
  split at h
  · cases h
    exact ⟨_, rfl⟩
  · cases h

/-- The step of a unit: it takes its buffers, computes, and gives the buffers back. -/
theorem computeBlock_eq_ok {read : Engine U → Inputs} {id : UnitId} {binding : Binding}
    {outs : Array Samples} {e e' : Engine U} (h : computeBlock read id binding e = .ok outs e') :
    (e.graph.node? id = none ∧ e' = e) ∨
    ∃ n p p' e₁ pool pool', e.graph.node? id = some n ∧ p.last = 0 ∧
      computeSamples read id n p (e.withPool pool) = .ok p' e₁ ∧ e' = e₁.withPool pool' := by
  rw [computeBlock, run_get_bind] at h
  cases hn : e.graph.node? id with
  | none =>
    simp only [hn] at h
    cases h
    exact .inl ⟨rfl, rfl⟩
  | some n =>
    simp only [hn] at h
    obtain ⟨outlets, e₁, htake, h⟩ := run_bind_eq_ok.1 h
    obtain ⟨pool, rfl⟩ := eq_withPool_of_onPool htake
    obtain ⟨p', e₂, hsamples, h⟩ := run_bind_eq_ok.1 h
    obtain ⟨_, e₃, hreturn, h⟩ := run_bind_eq_ok.1 h
    obtain ⟨pool', rfl⟩ := eq_withPool_of_onPool hreturn
    cases h
    exact .inr ⟨n, _, p', e₂, pool, pool', rfl, rfl, hsamples, rfl⟩

theorem strides_runStep {plan : Plan} {s : Step} {e e' : Engine U} (h : runStep plan s e = .ok ⟨⟩ e') :
    Strides (fun id => s = .unit id) e e' := by
  cases s with
  | sum left right out =>
    rw [runStep] at h
    obtain ⟨pool, rfl⟩ := eq_withPool_of_onPool h
    exact .single (.pool pool)
  | unit id =>
    obtain ⟨outs, e₁, hblock, h⟩ := run_bind_eq_ok.1 h
    cases h
    rcases computeBlock_eq_ok hblock with ⟨-, rfl⟩ | ⟨n, p, p', e₂, pool, pool', -, -, hs, rfl⟩
    · exact .refl
    · have hmoves : Strides (fun x => Step.unit id = .unit x) (e.withPool pool) e₂ :=
        (strides_computeSamples rfl hs).mono fun _ h => h ▸ rfl
      exact .head (.pool pool) (hmoves.tail (.pool pool'))

theorem strides_play {plan : Plan} {steps : List Step} {e e' : Engine U}
    (h : play plan steps e = .ok ⟨⟩ e') : Strides (fun id => .unit id ∈ steps) e e' := by
  induction steps generalizing e with
  | nil =>
    cases h
    exact .refl
  | cons s steps ih =>
    rw [play, List.forM_cons] at h
    obtain ⟨_, e₁, hs, h⟩ := run_bind_eq_ok.1 h
    have hfirst : Strides (fun id => .unit id ∈ s :: steps) e e₁ :=
      (strides_runStep hs).mono fun id h => h ▸ List.mem_cons_self
    exact hfirst.trans ((ih h).mono fun _ => List.mem_cons_of_mem _)

theorem moves_runStep {plan : Plan} {s : Step} {e e' : Engine U} (h : runStep plan s e = .ok ⟨⟩ e') :
    Moves (fun id => s = .unit id) e e' := (strides_runStep h).moves

theorem moves_play {plan : Plan} {steps : List Step} {e e' : Engine U}
    (h : play plan steps e = .ok ⟨⟩ e') : Moves (fun id => .unit id ∈ steps) e e' :=
  (strides_play h).moves

/-! ## Deeds -/

/-- What a command may make a node of. -/
def Command.Makes : Command U → Body U → Prop
  | .addUnit _ unit, body => body = .device unit
  | .addSubgraph _, body => body = .subgraph
  | _, _ => False

/-- Whether a command schedules an event for a unit, or cancels one. -/
def Command.Aims : Command U → UnitId → Prop
  | .schedule target _ _, x | .cancel target _ _, x => x = target
  | _, _ => False

/-- An edit that is accepted and removes no node. -/
inductive Edited (made : Body U → Prop) (g g' : Graph U) : Prop
  | added {owner : Option UnitId} {body : Body U} {id : UnitId} : made body →
      Edit.add owner body g = .ok id g' → Edited made g g'
  | connected {c : Connection} {kind : ConnectionKind} :
      Edit.connect c g = .ok kind g' → Edited made g g'
  | disconnected {c : Connection} : Edit.disconnect c g = .ok ⟨⟩ g' → Edited made g g'

/-- What carrying out a command comes to. -/
inductive Deed (command : Command U) (e : Engine U) : Engine U → Prop
  /-- Nothing is done. -/
  | idle : Deed command e e
  /-- An edit is refused. -/
  | declined : Deed command e (e.withGraph e.graph)
  | edited {g : Graph U} : Edited command.Makes e.graph g → Deed command e (e.withGraph g)
  /-- A node is removed, and with it all events that it and what was in it have scheduled. -/
  | removed {id : UnitId} {body : Body U} {g : Graph U} : Edit.remove id e.graph = .ok body g →
      Deed command e { e.withGraph g with
        queue := (e.graph.descendants id).foldl Queue.removeUnit e.queue }
  /-- An event is scheduled at an outlet that a node has. -/
  | scheduled {target : UnitId} {n : Node U} {outlet : Nat} (message : Message) :
      e.graph.node? target = some n → outlet < n.ports.outlets → command.Aims target →
      Deed command e { e with queue := (e.queue.insert target outlet message).2 }
  | cancelled (target : UnitId) (outlet : Nat) (id : EventId) : command.Aims target →
      Deed command e { e with queue := e.queue.remove target outlet id }
  | sent (name : String) (message : Message) :
      Deed command e { e with
        queue := (e.graph.names.receivers name).foldl (fun q id => (q.insert id 0 message).2) e.queue }
  | unheard (name : String) : Deed command e (e.report .warning (noReceiver name))
  /-- The host listens to other names. -/
  | listened (externals : List Symbol) :
      Deed command e
        { e with graph := { e.graph with names := { e.graph.names with externals } } }
  /-- What was collected for the host is taken. -/
  | taken : command = .takeExternal → Deed command e { e with external := #[] }
  | planned {plan : Plan} {e' : Engine U} : compile e = .ok plan e' → Deed command e e'
  | played {input samples : Samples} {outLength : Nat} {e' : Engine U} :
      command = .process input outLength → process input outLength e = .ok samples e' →
      Deed command e e'

/-- That a change comes to a deed, also when it is refused. -/
abbrev Does {α : Type} (command : Command U) (e : Engine U)
    (r : EStateM.Result Failure (Engine U) α) : Prop :=
  Yields (fun f e' => ∀ why, f = .refused why → Deed command e e')
    (fun _ e' => Deed command e e') r

theorem Does.map {command : Command U} {α β : Type} {f : α → β}
    {change : Change U α} {e : Engine U} (h : Does command e (change e)) :
    Does command e ((f <$> change) e) := by
  show Does command e (EStateM.map f change e)
  unfold EStateM.map
  cases hr : change e with
  | ok a e₁ =>
    rw [hr] at h
    exact h
  | error how e₁ =>
    rw [hr] at h
    exact h

section Commands

variable {command : Command U} {e e' : Engine U}

theorem does_edit {α : Type} {change : Edit U α} (hc : change.Proper)
    (h : ∀ {a g}, change e.graph = .ok a g → Edited command.Makes e.graph g) :
    Does command e (edit change e) := by
  unfold edit
  cases hr : change e.graph with
  | ok a g => exact .edited (h hr)
  | error how g =>
    rintro why rfl
    rw [hc.refused hr]
    exact .declined

theorem does_add (owner : Option UnitId) {body : Body U} (hmade : command.Makes body) :
    Does command e (edit (Edit.add owner body) e) :=
  does_edit (Edit.proper_add owner body) fun h => .added hmade h

theorem does_remove (id : UnitId) : Does command e (remove id e) := by
  unfold remove
  rw [run_get_bind]
  show Yields _ _ ((edit (Edit.remove id) >>= _) e)
  rw [run_bind, edit]
  cases hr : Edit.remove id e.graph with
  | ok body g => exact .removed hr
  | error how g =>
    rintro why rfl
    rw [(Edit.proper_remove id).refused hr]
    exact .declined

theorem does_schedule {target : UnitId} (haims : command.Aims target) (outlet : Nat) (message : Message) :
    Does command e (schedule target outlet message e) := by
  unfold schedule
  rw [run_get_bind]
  cases hn : e.graph.node? target with
  | none => exact fun _ _ => .idle
  | some n =>
    by_cases h : n.ports.outlets ≤ outlet
    · simp only [h, if_true]
      exact fun _ _ => .idle
    · simp only [h, if_false]
      exact .scheduled message hn (Nat.not_le.1 h) haims

theorem does_sendTo (name : String) (message : Message) :
    Does command e (sendTo name message e) := by
  unfold sendTo
  rw [run_get_bind]
  show Deed command e (if _ then _ else _)
  split
  · next h =>
    rw [List.isEmpty_iff.1 h]
    exact .unheard name
  · exact .sent name message

theorem does_registerExternal (name : String) : Does command e (registerExternal name e) := by
  unfold registerExternal
  rw [run_get_bind]
  show Deed command e
    { e with graph := { e.graph with names := e.graph.names.registerExternal name } }
  unfold Names.registerExternal
  split
  · exact .idle
  · exact .listened _

theorem does_ofWork {α : Type} {work : Work U α}
    (h : ∀ {a e'}, work e = .ok a e' → Deed command e e') : Does command e (ofWork work e) := by
  unfold ofWork
  cases hr : work e with
  | ok a e₁ => exact h hr
  | error how e₁ => exact fun _ h => by cases h

theorem does_perform (c : Command U) : Does c e (perform c e) := by
  cases c with
  | addUnit owner unit =>
    have hmakes : (Command.addUnit owner unit).Makes (.device unit) := rfl
    exact (does_add owner hmakes).map
  | addSubgraph owner =>
    have hmakes : (Command.addSubgraph (U := U) owner).Makes .subgraph := rfl
    exact (does_add owner hmakes).map
  | remove node => exact (does_remove node).map
  | connect c => exact (does_edit (Edit.proper_connect c) .connected).map
  | disconnect c =>
    exact (does_edit (Edit.proper_disconnect c) .disconnected).bind fun _ _ h => h
  | schedule target outlet message =>
    have haims : (Command.schedule (U := U) target outlet message).Aims target := rfl
    exact (does_schedule haims outlet message).map
  | cancel target outlet event => exact .cancelled target outlet event rfl
  | sendTo name message => exact (does_sendTo name message).map
  | registerExternal name => exact (does_registerExternal name).map
  | unregisterExternal name => exact .listened _
  | takeExternal => exact .taken rfl
  | compile => exact (does_ofWork .planned).map
  | process input outLength => exact (does_ofWork (.played rfl)).map

/-- What a command comes to. -/
theorem deed_of_after {c : Command U} (h : e.after c = some e') : Deed c e e' := by
  have hd := does_perform (e := e) c
  unfold after at h
  cases hr : perform c e with
  | ok reply e₁ =>
    rw [hr] at hd h
    cases h
    exact hd
  | error how e₁ =>
    rw [hr] at hd h
    cases how with
    | refused why =>
      cases h
      exact hd why rfl
    | broken f => cases h

/-- What a new engine has and each deed keeps, every engine has that commands lead to. -/
theorem Reachable.keeps {settings : Settings} {P : Engine U → Prop}
    (hnew : ∀ e, Engine.new settings = .ok e → P e)
    (hdeed : ∀ command e e', Deed command e e' → P e → P e') (h : Reachable settings e) : P e := by
  induction h with
  | start hn => exact hnew _ hn
  | step _ hafter ih => exact hdeed _ _ _ (deed_of_after hafter) ih

end Commands

/-! ## The outbox between blocks -/

theorem outbox_of_move {own : UnitId → Prop} {e e' : Engine U} (h : Move own e e') :
    e'.outbox = e.outbox := by
  cases h with
  | ripple h => cases h <;> rfl
  | take _ h =>
    unfold nextPending? at h
    split at h
    · cases h
      rfl
    · cases h
  | fall | emit | pool | compute | receive | calm => rfl

theorem outbox_of_moves {own : UnitId → Prop} {e e' : Engine U} (h : Moves own e e') :
    e'.outbox = e.outbox :=
  h.keeps (P := fun e₁ => e₁.outbox = e.outbox) (fun _ _ hm h => (outbox_of_move hm).trans h) rfl

theorem outbox_of_deed {command : Command U} {e e' : Engine U}
    (h : Deed command e e') : e'.outbox = e.outbox := by
  cases h with
  | planned h =>
    obtain ⟨g, -, rfl⟩ := compile_eq_ok.1 h
    rfl
  | played _ h =>
    obtain ⟨drained, plan, planned, ended, hdrain, hplan, hplay, rfl⟩ := process_eq_ok h
    obtain ⟨g, -, rfl⟩ := compile_eq_ok.1 hplan
    have hdrained := outbox_of_moves (moves_drain (fun _ => True) hdrain)
    exact (outbox_of_moves (moves_play hplay)).trans hdrained
  | idle | declined | edited | removed | scheduled | cancelled | sent | unheard | listened | taken =>
    rfl

/-- Between blocks nothing waits to be dispatched. -/
theorem outbox_of_reachable {settings : Settings} {e : Engine U} (h : Reachable settings e) :
    e.outbox = #[] := by
  refine h.keeps (P := fun e => e.outbox = #[]) (fun e hn => ?_) fun _ e e' hd he => ?_
  · obtain ⟨_, -, hn⟩ := bind_eq_ok.1 hn
    obtain ⟨_, -, hn⟩ := bind_eq_ok.1 hn
    obtain ⟨_, -, hn⟩ := bind_eq_ok.1 hn
    cases hn
    rfl
  · exact (outbox_of_deed hd).trans he

/-! ## Cascades -/

theorem outbox_handBack (event : Event) (e : Engine U) : (handBack event e).outbox = e.outbox :=
  outbox_of_moves (moves_handBack (fun _ => True) event e)

/-- Handing an event back ends, and comes to the plain recursion that does each errand with all that
follows from it before the next. What happens is recorded in that order and in no other. No unit is
reached as deep as the limit, and deliveries that lie there are reported. The outbox is as it was; it
is empty between blocks. -/
theorem handBack_cascades (event : Event) (e : Engine U) :
    (∃ trace, HandsBack event e trace (handBack event e) ∧
      (∀ trace' e', HandsBack event e trace' e' → trace' = trace ∧ e' = handBack event e) ∧
      (handBack event e).journal = e.journal ++ (trace.map Prod.snd).toArray ∧
      ∀ entry ∈ trace, entry.1 ≤ maxDepth ∧ (Reaches entry.2 → entry.1 < maxDepth)) ∧
    (handBack event e).outbox = e.outbox ∧
    ∀ settings, Reachable settings e → e.outbox = #[] := by
  obtain ⟨trace, h⟩ := exists_handsBack event e
  refine ⟨⟨trace, h, fun trace' e' h' => ⟨h'.unique h, h'.eq⟩, h.journal, h.depth⟩,
    outbox_handBack event e, fun settings hreach => outbox_of_reachable hreach⟩

/-- What a message does that goes round in a circle, through a connection and a name. -/
theorem handBack_cascades_circle : ∃ e : Engine CatalogueUnit,
    e.graph.outgoing ⟨0⟩ 0 = [⟨⟨0⟩, 0, ⟨1⟩, 0⟩] ∧ e.graph.names.receivers "loop" = [⟨0⟩] ∧
    Reachable smallBlocks e ∧
    (∃ trace, HandsBack ⟨⟨0⟩, ⟨0⟩, 0, .bang 0⟩ e trace (handBack ⟨⟨0⟩, ⟨0⟩, 0, .bang 0⟩ e) ∧
      ∀ entry ∈ trace, entry.1 ≤ maxDepth ∧ (Reaches entry.2 → entry.1 < maxDepth)) ∧
    e.outbox = #[] := by
  obtain ⟨e, hroomy, hcircle⟩ := exists_roomy smallBlocks
    [ .addUnit none (CatalogueUnit.messageReceiver ⟨.ofString "loop"⟩),
      .addUnit none (.messageSender ⟨.ofString "loop"⟩), .connect ⟨⟨0⟩, 0, ⟨1⟩, 0⟩ ]
    (fun e => decide (e.graph.outgoing ⟨0⟩ 0 = [⟨⟨0⟩, 0, ⟨1⟩, 0⟩] ∧
      e.graph.names.receivers "loop" = [⟨0⟩])) (by cbv)
  obtain ⟨hout, hname⟩ := of_decide_eq_true hcircle
  obtain ⟨⟨trace, htrace, -, -, hdepth⟩, -, hempty⟩ :=
    handBack_cascades ⟨⟨0⟩, ⟨0⟩, 0, .bang 0⟩ e
  exact ⟨e, hout, hname, hroomy.reachable, ⟨trace, htrace, hdepth⟩,
    hempty smallBlocks hroomy.reachable⟩

end Engine
end Patchbay
