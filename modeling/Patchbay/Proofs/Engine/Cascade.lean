import Patchbay.Proofs.Engine.Outbox

/-!
# Cascades of messages

`Runs` says what follows from some errands, without an outbox and without a bound on how deep the
account of it may nest: each errand is done with all that follows from it before the next one, and one
that lies as deep as deliveries may nest is cut. It keeps a trace of what happens, each entry with its
depth. The engine does just that (`exists_runs`, `eq_runAll_of_runs`), so each cascade ends.
-/

namespace Patchbay

variable {U : Type} [Device U]

/-- What happens in a script besides the sending of messages, in order. -/
def Script.happenings {α : Type} (id : UnitId) (label : String) :
    Script α → Queue → List Happening
  | .done _, _ => []
  | .send _ _ next, q => next.happenings id label q
  | .sendTo _ _ next, q => next.happenings id label q
  | .schedule outlet message next, q =>
    .scheduled id (q.insert id outlet message).1 ::
      (next (q.insert id outlet message).1).happenings id label (q.insert id outlet message).2
  | .cancel outlet event next, q =>
    .cancelled id event (q.find? id outlet event).isSome ::
      (next (q.find? id outlet event).isSome).happenings id label (q.remove id outlet event)
  | .report severity text next, q =>
    .reported { severity, source := label, text } :: next.happenings id label q

/-- Besides sending, a script schedules events and cancels them, and reports. -/
theorem Script.forall_happenings {α : Type} {id : UnitId} {label : String} {P : Happening → Prop}
    (scheduled : ∀ event, P (.scheduled id event))
    (cancelled : ∀ event found, P (.cancelled id event found)) (reported : ∀ r, P (.reported r))
    (script : Script α) (q : Queue) : ∀ h ∈ script.happenings id label q, P h := by
  induction script generalizing q with
  | done => exact fun _ h => by cases h
  | send _ _ _ ih | sendTo _ _ _ ih => exact ih q
  | schedule _ _ _ ih => exact List.forall_mem_cons.2 ⟨scheduled _, ih _ _⟩
  | cancel _ _ _ ih => exact List.forall_mem_cons.2 ⟨cancelled _ _, ih _ _⟩
  | report _ _ _ ih => exact List.forall_mem_cons.2 ⟨reported _, ih q⟩

namespace Engine

/-- Something that is to be done while messages are delivered. -/
inductive Errand where
  /-- A message is to be delivered to an inlet. -/
  | deliver (target : UnitId) (inlet : Nat) (message : Message)
  /-- What a unit has sent is to be dispatched. -/
  | dispatch (out : Outgoing)

/-- What happened, oldest first, and how deep in a cascade. -/
abbrev Trace := List (Nat × Happening)

/-- What is reported of a delivery that lies too deep. -/
def cutReport (target : UnitId) (message : Message) : Happening :=
  .reported
    { severity := .error, source := reporter
      text := s!"message depth limit reached at {target.text}; dropping '{message.text}'" }

/-- What happens when a unit reacts to a message that it receives. -/
def reception (e : Engine U) (target : UnitId) (unit : U) (inlet : Nat) (message : Message) :
    List Happening :=
  .received target inlet message ::
    (Device.receive unit inlet message (e.surroundings target)).happenings target
      (Device.label unit) e.queue

/-- What a unit sends when it receives a message. -/
def answers (e : Engine U) (target : UnitId) (unit : U) (inlet : Nat) (message : Message) :
    List Outgoing :=
  (Device.receive unit inlet message (e.surroundings target)).sends target e.queue

/-- The engine once a unit has received a message; what it sends is left out. -/
def received (e : Engine U) (target : UnitId) (unit : U) (inlet : Nat) (message : Message) :
    Engine U :=
  (e.record (.received target inlet message)).reactQuietly target unit
    (Device.receive unit inlet message (e.surroundings target))

/-- What follows when some errands are done at a depth. -/
inductive Runs : Nat → List Errand → Engine U → Trace → Engine U → Prop
  | done {depth : Nat} {e : Engine U} : Runs depth [] e [] e
  /-- A delivery that lies too deep is reported. -/
  | cut {depth : Nat} {target : UnitId} {inlet : Nat} {message : Message} {rest : List Errand}
      {e e' : Engine U} {trace : Trace} : maxDepth ≤ depth →
      Runs depth rest (e.record (cutReport target message)) trace e' →
      Runs depth (.deliver target inlet message :: rest) e
        ((depth, cutReport target message) :: trace) e'
  /-- The target may be gone. -/
  | gone {depth : Nat} {target : UnitId} {inlet : Nat} {message : Message} {rest : List Errand}
      {e e' : Engine U} {trace : Trace} : depth < maxDepth → e.graph.node? target = none →
      Runs depth rest e trace e' → Runs depth (.deliver target inlet message :: rest) e trace e'
  /-- A port of a subgraph passes a message on. -/
  | pass {depth : Nat} {target : UnitId} {inlet : Nat} {message : Message} {rest : List Errand}
      {e e₁ e' : Engine U} {n : Node U} {goals : List (UnitId × Nat)} {inner trace : Trace} :
      depth < maxDepth → e.graph.node? target = some n →
      passOn? e.graph n target inlet = some goals →
      Runs (depth + 1) (goals.map fun goal => .deliver goal.1 goal.2 message) e inner e₁ →
      Runs depth rest e₁ trace e' →
      Runs depth (.deliver target inlet message :: rest) e (inner ++ trace) e'
  /-- A unit that computes keeps a message for its step. -/
  | wait {depth : Nat} {target : UnitId} {inlet : Nat} {message : Message} {rest : List Errand}
      {e e' : Engine U} {n : Node U} {unit : U} {trace : Trace} :
      depth < maxDepth → e.graph.node? target = some n →
      passOn? e.graph n target inlet = none → n.body = .device unit →
      Device.computes unit = true → Runs depth rest (e.defer target inlet message) trace e' →
      Runs depth (.deliver target inlet message :: rest) e
        ((depth, .deferred target inlet message) :: trace) e'
  /-- Any other unit receives it, and all that it sends is dispatched before the next errand. -/
  | receive {depth : Nat} {target : UnitId} {inlet : Nat} {message : Message} {rest : List Errand}
      {e e₁ e' : Engine U} {n : Node U} {unit : U} {inner trace : Trace} :
      depth < maxDepth → e.graph.node? target = some n →
      passOn? e.graph n target inlet = none → n.body = .device unit →
      Device.computes unit = false →
      Runs (depth + 1) ((e.answers target unit inlet message).map .dispatch)
        (e.received target unit inlet message) inner e₁ →
      Runs depth rest e₁ trace e' →
      Runs depth (.deliver target inlet message :: rest) e
        ((e.reception target unit inlet message).map (depth, ·) ++ inner ++ trace) e'
  /-- A message leaves an outlet along its connections, the oldest first. -/
  | leave {depth : Nat} {source : UnitId} {outlet : Nat} {message : Message} {rest : List Errand}
      {e e₁ e' : Engine U} {inner trace : Trace} :
      Runs depth ((e.graph.outgoing source outlet).map fun c => .deliver c.dest c.inlet message)
        e inner e₁ →
      Runs depth rest e₁ trace e' →
      Runs depth (.dispatch ⟨source, .outlet outlet, message⟩ :: rest) e (inner ++ trace) e'
  /-- A message for a name goes to the host first, if the name is external, and then to the
  receivers, the one registered first before all others. -/
  | collect {depth : Nat} {source : UnitId} {name : Symbol} {message : Message} {rest : List Errand}
      {e e₁ e' : Engine U} {inner trace : Trace} :
      e.graph.names.isExternal name.text = true →
      Runs depth
        ((e.graph.names.receivers name.text).map fun id => .deliver id 0 message)
        ({ e with external := e.external.push (name, message) }.record (.collected name message))
        inner e₁ →
      Runs depth rest e₁ trace e' →
      Runs depth (.dispatch ⟨source, .named name, message⟩ :: rest) e
        ((depth, .collected name message) :: inner ++ trace) e'
  /-- That there is nobody is reported. -/
  | unheard {depth : Nat} {source : UnitId} {name : Symbol} {message : Message} {rest : List Errand}
      {e e' : Engine U} {trace : Trace} :
      e.graph.names.isExternal name.text = false → e.graph.names.receivers name.text = [] →
      Runs depth rest (e.report .warning (noReceiver name.text)) trace e' →
      Runs depth (.dispatch ⟨source, .named name, message⟩ :: rest) e
        ((depth, .reported ⟨.warning, reporter, noReceiver name.text⟩) :: trace) e'
  /-- Otherwise it goes to the receivers alone. -/
  | call {depth : Nat} {source : UnitId} {name : Symbol} {message : Message} {rest : List Errand}
      {e e₁ e' : Engine U} {inner trace : Trace} :
      e.graph.names.isExternal name.text = false → e.graph.names.receivers name.text ≠ [] →
      Runs depth
        ((e.graph.names.receivers name.text).map fun id => .deliver id 0 message) e inner e₁ →
      Runs depth rest e₁ trace e' →
      Runs depth (.dispatch ⟨source, .named name, message⟩ :: rest) e (inner ++ trace) e'

/-- Some errands, and then some more. -/
theorem Runs.append {depth : Nat} {errands errands' : List Errand} {e e₁ e' : Engine U}
    {trace trace' : Trace} (h : Runs depth errands e trace e₁)
    (h' : Runs depth errands' e₁ trace' e') :
    Runs depth (errands ++ errands') e (trace ++ trace') e' := by
  induction h with
  | done => exact h'
  | cut hd _ ih => exact .cut hd (ih h')
  | gone hd hn _ ih => exact .gone hd hn (ih h')
  | pass hd hn hp hin _ _ ih =>
    rw [List.append_assoc]
    exact .pass hd hn hp hin (ih h')
  | wait hd hn hp hu hc _ ih => exact .wait hd hn hp hu hc (ih h')
  | receive hd hn hp hu hc hin _ _ ih =>
    rw [List.append_assoc]
    exact .receive hd hn hp hu hc hin (ih h')
  | leave hin _ _ ih =>
    rw [List.append_assoc]
    exact .leave hin (ih h')
  | collect hx hin _ _ ih =>
    rw [List.append_assoc]
    exact .collect hx hin (ih h')
  | unheard hx hr _ ih => exact .unheard hx hr (ih h')
  | call hx hr hin _ _ ih =>
    rw [List.append_assoc]
    exact .call hx hr hin (ih h')

/-! ## The engine runs cascades -/

/-- How the engine does an errand at a depth. -/
def runErrand (depth : Nat) (e : Engine U) : Errand → Engine U
  | .deliver target inlet message => deliver (maxDepth - depth) target inlet message e
  | .dispatch out => dispatch (deliver (maxDepth - depth)) out e

/-- How the engine does one errand after another. -/
def runAll (depth : Nat) (errands : List Errand) (e : Engine U) : Engine U :=
  errands.foldl (runErrand depth) e

theorem runAll_cons (depth : Nat) (errand : Errand) (rest : List Errand) (e : Engine U) :
    runAll depth (errand :: rest) e = runAll depth rest (runErrand depth e errand) := rfl

theorem runAll_deliver (depth : Nat) (goals : List (UnitId × Nat)) (message : Message)
    (e : Engine U) :
    runAll depth (goals.map fun goal => .deliver goal.1 goal.2 message) e =
      goals.foldl (fun e goal => deliver (maxDepth - depth) goal.1 goal.2 message e) e :=
  List.foldl_map

theorem runAll_dispatch (depth : Nat) (sent : List Outgoing) (e : Engine U) :
    runAll depth (sent.map .dispatch) e = dispatchAll (deliver (maxDepth - depth)) sent e :=
  List.foldl_map

theorem runErrand_leave (depth : Nat) (source : UnitId) (outlet : Nat) (message : Message)
    (e : Engine U) :
    runErrand depth e (.dispatch ⟨source, .outlet outlet, message⟩) =
      runAll depth ((e.graph.outgoing source outlet).map fun c => .deliver c.dest c.inlet message)
        e := by
  rw [runAll, List.foldl_map]
  rfl

theorem runErrand_named (depth : Nat) (source : UnitId) (name : Symbol) (message : Message)
    (e : Engine U) :
    runErrand depth e (.dispatch ⟨source, .named name, message⟩) =
      runAll depth ((e.graph.names.receivers name.text).map fun id => .deliver id 0 message)
        (if e.graph.names.isExternal name.text then
          { e with external := e.external.push (name, message) }.record (.collected name message)
        else if (e.graph.names.receivers name.text).isEmpty then
          e.report .warning (noReceiver name.text)
        else e) := by
  rw [runAll, List.foldl_map]
  rfl

section Deliver

variable {depth : Nat} {target : UnitId} {inlet : Nat} {message : Message} {e : Engine U}

theorem deliver_cut (h : maxDepth ≤ depth) :
    deliver (maxDepth - depth) target inlet message e = e.record (cutReport target message) := by
  rw [Nat.sub_eq_zero_of_le h, deliver]
  rfl

variable (hd : depth < maxDepth)
include hd

theorem deliver_gone (hn : e.graph.node? target = none) :
    deliver (maxDepth - depth) target inlet message e = e := by
  rw [show maxDepth - depth = maxDepth - (depth + 1) + 1 by omega, deliver]
  simp only [hn]

variable {n : Node U} (hn : e.graph.node? target = some n)
include hn

theorem deliver_pass {goals : List (UnitId × Nat)}
    (hp : passOn? e.graph n target inlet = some goals) :
    deliver (maxDepth - depth) target inlet message e =
      runAll (depth + 1) (goals.map fun goal => .deliver goal.1 goal.2 message) e := by
  rw [show maxDepth - depth = maxDepth - (depth + 1) + 1 by omega, deliver, runAll_deliver]
  simp only [hn, hp]

variable {unit : U} (hp : passOn? e.graph n target inlet = none) (hu : n.body = .device unit)
include hp hu

theorem deliver_wait (hc : Device.computes unit = true) :
    deliver (maxDepth - depth) target inlet message e = e.defer target inlet message := by
  rw [show maxDepth - depth = maxDepth - (depth + 1) + 1 by omega, deliver]
  simp only [hn, hp, hu, hc, if_true]

theorem deliver_receive (hc : Device.computes unit = false) :
    deliver (maxDepth - depth) target inlet message e =
      runAll (depth + 1) ((e.answers target unit inlet message).map .dispatch)
        (e.received target unit inlet message) := by
  rw [show maxDepth - depth = maxDepth - (depth + 1) + 1 by omega, deliver, runAll_dispatch]
  simp only [hn, hp, hu, hc, Bool.false_eq_true, if_false]
  exact flush_receive (unposted_deliver _) target unit inlet message e

end Deliver

omit [Device U] in
/-- A node that passes nothing on is a unit. -/
theorem exists_unit_of_passOn? {g : Graph U} {n : Node U} {target : UnitId} {inlet : Nat}
    (h : passOn? g n target inlet = none) : ∃ unit, n.body = .device unit := by
  cases hb : n.body with
  | device unit => exact ⟨unit, rfl⟩
  | subgraph => simp [passOn?, Node.isSubgraph, hb] at h

/-- What the engine does is all that can follow. -/
theorem eq_runAll_of_runs {depth : Nat} {errands : List Errand} {e e' : Engine U} {trace : Trace}
    (h : Runs depth errands e trace e') : e' = runAll depth errands e := by
  induction h with
  | done => rfl
  | cut hd _ ih => rw [ih, runAll_cons, runErrand, deliver_cut hd]
  | gone hd hn _ ih => rw [ih, runAll_cons, runErrand, deliver_gone hd hn]
  | pass hd hn hp _ _ ih ih' => rw [ih', ih, runAll_cons, runErrand, deliver_pass hd hn hp]
  | wait hd hn hp hu hc _ ih => rw [ih, runAll_cons, runErrand, deliver_wait hd hn hp hu hc]
  | receive hd hn hp hu hc _ _ ih ih' =>
    rw [ih', ih, runAll_cons, runErrand, deliver_receive hd hn hp hu hc]
  | leave _ _ ih ih' => rw [ih', ih, runAll_cons, runErrand_leave]
  | collect hx _ _ ih ih' => rw [ih', ih, runAll_cons, runErrand_named, if_pos hx]
  | unheard hx hr _ ih =>
    rw [ih, runAll_cons, runErrand_named, hx, hr]
    rfl
  | call hx hr _ _ ih ih' =>
    rw [ih', ih, runAll_cons, runErrand_named, hx]
    simp only [Bool.false_eq_true, if_false, List.isEmpty_iff, hr]

/-- Only one thing can follow from some errands. -/
theorem Runs.unique {depth : Nat} {errands : List Errand} {e e₁ e₂ : Engine U} {trace₁ trace₂ : Trace}
    (h₁ : Runs depth errands e trace₁ e₁) (h₂ : Runs depth errands e trace₂ e₂) :
    trace₁ = trace₂ := by
  induction h₁ generalizing trace₂ e₂ with
  | done =>
    cases h₂
    rfl
  | cut hd _ ih =>
    cases h₂ with
    | cut _ h => rw [ih h]
    | gone hd' | pass hd' | wait hd' | receive hd' => omega
  | gone hd hn _ ih =>
    cases h₂ with
    | cut hd' => omega
    | gone _ _ h => exact ih h
    | pass _ hn' | wait _ hn' | receive _ hn' => simp [hn] at hn'
  | pass hd hn hp hin _ ihin ih =>
    cases h₂ with
    | cut hd' => omega
    | gone _ hn' => simp [hn] at hn'
    | pass _ hn' hp' hin' h =>
      cases hn.symm.trans hn'
      cases hp.symm.trans hp'
      cases (eq_runAll_of_runs hin).trans (eq_runAll_of_runs hin').symm
      rw [ihin hin', ih h]
    | wait _ hn' hp' | receive _ hn' hp' =>
      cases hn.symm.trans hn'
      simp [hp] at hp'
  | wait hd hn hp hu hc _ ih =>
    cases h₂ with
    | cut hd' => omega
    | gone _ hn' => simp [hn] at hn'
    | pass _ hn' hp' =>
      cases hn.symm.trans hn'
      simp [hp] at hp'
    | wait _ _ _ _ _ h => rw [ih h]
    | receive _ hn' _ hu' hc' =>
      cases hn.symm.trans hn'
      cases hu.symm.trans hu'
      simp [hc] at hc'
  | receive hd hn hp hu hc hin _ ihin ih =>
    cases h₂ with
    | cut hd' => omega
    | gone _ hn' => simp [hn] at hn'
    | pass _ hn' hp' =>
      cases hn.symm.trans hn'
      simp [hp] at hp'
    | wait _ hn' _ hu' hc' =>
      cases hn.symm.trans hn'
      cases hu.symm.trans hu'
      simp [hc] at hc'
    | receive _ hn' _ hu' _ hin' h =>
      cases hn.symm.trans hn'
      cases hu.symm.trans hu'
      cases (eq_runAll_of_runs hin).trans (eq_runAll_of_runs hin').symm
      rw [ihin hin', ih h]
  | leave hin _ ihin ih =>
    cases h₂ with
    | leave hin' h =>
      cases (eq_runAll_of_runs hin).trans (eq_runAll_of_runs hin').symm
      rw [ihin hin', ih h]
  | collect hx hin _ ihin ih =>
    cases h₂ with
    | collect _ hin' h =>
      cases (eq_runAll_of_runs hin).trans (eq_runAll_of_runs hin').symm
      rw [ihin hin', ih h]
    | unheard hx' | call hx' => simp [hx] at hx'
  | unheard hx hr _ ih =>
    cases h₂ with
    | collect hx' => simp [hx] at hx'
    | unheard _ _ h => rw [ih h]
    | call _ hr' => exact (hr' hr).elim
  | call hx hr hin _ ihin ih =>
    cases h₂ with
    | collect hx' => simp [hx] at hx'
    | unheard _ hr' => exact (hr hr').elim
    | call _ _ hin' h =>
      cases (eq_runAll_of_runs hin).trans (eq_runAll_of_runs hin').symm
      rw [ihin hin', ih h]

/-- Something follows from any errands if something follows from each delivery. -/
theorem exists_runs_of_deliver {depth : Nat}
    (h : ∀ target inlet message (e : Engine U), ∃ trace,
      Runs depth [.deliver target inlet message] e trace
        (runErrand depth e (.deliver target inlet message)))
    (errands : List Errand) (e : Engine U) :
    ∃ trace, Runs depth errands e trace (runAll depth errands e) := by
  have hlist : ∀ (errands : List Errand),
      (∀ errand ∈ errands, ∀ e : Engine U, ∃ trace,
        Runs depth [errand] e trace (runErrand depth e errand)) →
      ∀ e : Engine U, ∃ trace, Runs depth errands e trace (runAll depth errands e) := by
    intro errands hall
    induction errands with
    | nil => exact fun e => ⟨[], .done⟩
    | cons errand errands ih =>
      intro e
      obtain ⟨trace, hone⟩ := hall errand List.mem_cons_self e
      obtain ⟨trace', hrest⟩ := ih (fun a ha => hall a (List.mem_cons_of_mem _ ha))
        (runErrand depth e errand)
      exact ⟨trace ++ trace', hone.append hrest⟩
  have hdeliver : ∀ {α : Type} (l : List α) (f : α → UnitId × Nat × Message) (e : Engine U),
      ∃ trace, Runs depth (l.map fun a => .deliver (f a).1 (f a).2.1 (f a).2.2) e trace
        (runAll depth (l.map fun a => .deliver (f a).1 (f a).2.1 (f a).2.2) e) := by
    intro α l f
    refine hlist _ fun errand herrand => ?_
    obtain ⟨a, -, rfl⟩ := List.mem_map.1 herrand
    exact h _ _ _
  refine hlist errands (fun errand _ e => ?_) e
  cases errand with
  | deliver target inlet message => exact h target inlet message e
  | dispatch out =>
    obtain ⟨source, route, message⟩ := out
    cases route with
    | outlet outlet =>
      obtain ⟨trace, hrun⟩ := hdeliver (e.graph.outgoing source outlet)
        (fun c => (c.dest, c.inlet, message)) e
      rw [runErrand_leave]
      exact ⟨_, .leave hrun .done⟩
    | named name =>
      rw [runErrand_named]
      have hall := hdeliver (e.graph.names.receivers name.text) fun id => (id, 0, message)
      split
      · next hx =>
        obtain ⟨trace, hrun⟩ := hall
          ({ e with external := e.external.push (name, message) }.record (.collected name message))
        exact ⟨_, .collect hx hrun .done⟩
      · next hx =>
        have hx := Bool.eq_false_iff.2 hx
        split
        · next hr =>
          have hr := List.isEmpty_iff.1 hr
          rw [hr]
          exact ⟨_, .unheard hx hr .done⟩
        · next hr =>
          obtain ⟨trace, hrun⟩ := hall e
          exact ⟨_, .call hx (fun h => hr (List.isEmpty_iff.2 h)) hrun .done⟩

/-- What the engine does follows. The recursion ends since each delivery within another lies deeper,
and none lies deeper than the limit. -/
theorem exists_runs (depth : Nat) (errands : List Errand) (e : Engine U) :
    ∃ trace, Runs depth errands e trace (runAll depth errands e) := by
  induction hk : maxDepth - depth generalizing depth errands e with
  | zero =>
    refine exists_runs_of_deliver (fun target inlet message e => ?_) errands e
    have hd : maxDepth ≤ depth := by omega
    rw [runErrand, deliver_cut hd]
    exact ⟨_, .cut hd .done⟩
  | succ k ih =>
    refine exists_runs_of_deliver (fun target inlet message e => ?_) errands e
    have hd : depth < maxDepth := by omega
    have ih := fun errands (e : Engine U) => ih (depth + 1) errands e (by omega)
    rw [runErrand]
    cases hn : e.graph.node? target with
    | none =>
      rw [deliver_gone hd hn]
      exact ⟨_, .gone hd hn .done⟩
    | some n =>
      cases hp : passOn? e.graph n target inlet with
      | some goals =>
        rw [deliver_pass hd hn hp]
        obtain ⟨trace, hrun⟩ := ih (goals.map fun goal => .deliver goal.1 goal.2 message) e
        exact ⟨_, .pass hd hn hp hrun .done⟩
      | none =>
        obtain ⟨unit, hu⟩ := exists_unit_of_passOn? hp
        cases hc : Device.computes unit with
        | true =>
          rw [deliver_wait hd hn hp hu hc]
          exact ⟨_, .wait hd hn hp hu hc .done⟩
        | false =>
          rw [deliver_receive hd hn hp hu hc]
          obtain ⟨trace, hrun⟩ := ih ((e.answers target unit inlet message).map .dispatch)
            (e.received target unit inlet message)
          exact ⟨_, .receive hd hn hp hu hc hrun .done⟩

/-! ## Traces -/

omit [Device U] in
theorem journal_carryOut (id : UnitId) (label : String) (script : Script U) (e : Engine U) :
    (carryOut id label script e).2.journal =
      e.journal ++ (script.happenings id label e.queue).toArray := by
  induction script generalizing e with
  | done u => simp [carryOut, Script.happenings]
  | send outlet message next ih => exact ih (e.post id (.outlet outlet) message)
  | sendTo name message next ih => exact ih (e.post id (.named name) message)
  | schedule outlet message next ih =>
    rw [Script.happenings, List.toArray_cons, ← Array.append_assoc, ← Array.push_eq_append]
    exact ih _ _
  | cancel outlet event next ih =>
    rw [Script.happenings, List.toArray_cons, ← Array.append_assoc, ← Array.push_eq_append]
    exact ih _ _
  | report severity text next ih =>
    rw [Script.happenings, List.toArray_cons, ← Array.append_assoc, ← Array.push_eq_append]
    exact ih _

theorem journal_reactQuietly (e : Engine U) (id : UnitId) (unit : U) (script : Script U) :
    (e.reactQuietly id unit script).journal =
      e.journal ++ (script.happenings id (Device.label unit) e.queue).toArray :=
  journal_carryOut id (Device.label unit) script e

theorem journal_received (e : Engine U) (target : UnitId) (unit : U) (inlet : Nat)
    (message : Message) :
    (e.received target unit inlet message).journal =
      e.journal ++ (e.reception target unit inlet message).toArray := by
  rw [received, journal_reactQuietly, reception, List.toArray_cons, ← Array.append_assoc,
    ← Array.push_eq_append]
  rfl

/-- The journal records what happens, in the order in which it happens. -/
theorem Runs.journal {depth : Nat} {errands : List Errand} {e e' : Engine U} {trace : Trace}
    (h : Runs depth errands e trace e') :
    e'.journal = e.journal ++ (trace.map Prod.snd).toArray := by
  induction h with
  | done => simp
  | cut _ _ ih | wait _ _ _ _ _ _ ih | unheard _ _ _ ih =>
    rw [ih, List.map_cons, List.toArray_cons, ← Array.append_assoc, ← Array.push_eq_append]
    rfl
  | gone _ _ _ ih => exact ih
  | pass _ _ _ _ _ ih ih' | leave _ _ ih ih' | call _ _ _ _ ih ih' =>
    rw [ih', ih, Array.append_assoc, List.map_append]
    simp
  | receive _ _ _ _ _ _ _ ih ih' =>
    rw [ih', ih, journal_received]
    simp [Function.comp_def]
  | collect _ _ _ ih ih' =>
    rw [ih', ih, record, List.cons_append, List.map_cons, List.map_append]
    simp

/-- Whether a unit is reached: it receives a message, or keeps one for its step. -/
def Reaches : Happening → Prop
  | .received .. | .deferred .. => True
  | _ => False

/-- A script alone reaches no unit. -/
theorem not_reaches_of_mem_happenings {α : Type} {id : UnitId} {label : String} {script : Script α}
    {q : Queue} {h : Happening} (hmem : h ∈ script.happenings id label q) : ¬ Reaches h :=
  script.forall_happenings (P := fun h => ¬ Reaches h) (fun _ => not_false) (fun _ _ => not_false)
    (fun _ => not_false) q h hmem

/-- No unit is reached as deep as the limit, and nothing happens deeper. -/
theorem Runs.depth {depth : Nat} {errands : List Errand} {e e' : Engine U} {trace : Trace}
    (h : Runs depth errands e trace e') (hdepth : depth ≤ maxDepth) :
    ∀ entry ∈ trace, entry.1 ≤ maxDepth ∧ (Reaches entry.2 → entry.1 < maxDepth) := by
  induction h with
  | done => exact fun _ h => by cases h
  | cut _ _ ih | unheard _ _ _ ih =>
    refine List.forall_mem_cons.2 ⟨⟨hdepth, fun h => h.elim⟩, ih hdepth⟩
  | wait hd _ _ _ _ _ ih => exact List.forall_mem_cons.2 ⟨⟨hdepth, fun _ => hd⟩, ih hdepth⟩
  | gone _ _ _ ih => exact ih hdepth
  | pass hd _ _ _ _ ih ih' => exact List.forall_mem_append.2 ⟨ih hd, ih' hdepth⟩
  | leave _ _ ih ih' | call _ _ _ _ ih ih' =>
    exact List.forall_mem_append.2 ⟨ih hdepth, ih' hdepth⟩
  | receive hd _ _ _ _ _ _ ih ih' =>
    refine List.forall_mem_append.2 ⟨List.forall_mem_append.2 ⟨?_, ih hd⟩, ih' hdepth⟩
    intro entry hentry
    obtain ⟨h, -, rfl⟩ := List.mem_map.1 hentry
    exact ⟨hdepth, fun _ => hd⟩
  | collect _ _ _ ih ih' =>
    exact List.forall_mem_cons.2 ⟨⟨hdepth, fun h => h.elim⟩,
      List.forall_mem_append.2 ⟨ih hdepth, ih' hdepth⟩⟩

/-! ## What cascades keep -/

/-- That each thing that may happen in a cascade keeps `Inv` and leads from errands that are `Fit` only
to such errands, as long as what happens is `Nice`. -/
structure Keeping (Inv : Engine U → Prop) (Fit : Errand → Prop) (Nice : Happening → Prop) : Prop where
  report {e : Engine U} (r : Report) : Inv e → Inv (e.record (.reported r))
  collect {e : Engine U} (name : Symbol) (message : Message) : Inv e →
    Inv ({ e with external := e.external.push (name, message) }.record (.collected name message))
  defer {e : Engine U} {target : UnitId} {n : Node U} {unit : U} {inlet : Nat} {message : Message} :
    Inv e → e.graph.node? target = some n → n.body = .device unit →
    Inv (e.defer target inlet message)
  receive {e : Engine U} {target : UnitId} {n : Node U} {unit : U} {inlet : Nat} {message : Message} :
    Inv e → Fit (.deliver target inlet message) → Nice (.received target inlet message) →
    e.graph.node? target = some n → passOn? e.graph n target inlet = none → n.body = .device unit →
    Device.computes unit = false → Inv (e.received target unit inlet message) ∧
      ∀ out ∈ e.answers target unit inlet message, Fit (.dispatch out)
  pass {e : Engine U} {target : UnitId} {n : Node U} {inlet : Nat} {message : Message}
    {goals : List (UnitId × Nat)} {goal : UnitId × Nat} :
    Inv e → Fit (.deliver target inlet message) → e.graph.node? target = some n →
    passOn? e.graph n target inlet = some goals → goal ∈ goals → Fit (.deliver goal.1 goal.2 message)
  leave {e : Engine U} {source : UnitId} {outlet : Nat} {message : Message} {c : Connection} :
    Inv e → Fit (.dispatch ⟨source, .outlet outlet, message⟩) → c ∈ e.graph.outgoing source outlet →
    Fit (.deliver c.dest c.inlet message)
  call {e : Engine U} {source : UnitId} {name : Symbol} {message : Message} {id : UnitId} :
    Inv e → Fit (.dispatch ⟨source, .named name, message⟩) → id ∈ e.graph.names.receivers name.text →
    Fit (.deliver id 0 message)

/-- What all that may happen keeps, cascades keep. -/
theorem Runs.keeps {Inv : Engine U → Prop} {Fit : Errand → Prop} {Nice : Happening → Prop}
    (hk : Keeping Inv Fit Nice) {depth : Nat} {errands : List Errand} {e e' : Engine U} {trace : Trace}
    (h : Runs depth errands e trace e') (hnice : ∀ entry ∈ trace, Nice entry.2) (he : Inv e)
    (hfit : ∀ errand ∈ errands, Fit errand) : Inv e' := by
  induction h with
  | done => exact he
  | cut _ _ ih =>
    exact ih (List.forall_mem_cons.1 hnice).2 (hk.report _ he) (List.forall_mem_cons.1 hfit).2
  | gone _ _ _ ih => exact ih hnice he (List.forall_mem_cons.1 hfit).2
  | pass _ hn hp _ _ ihin ih =>
    obtain ⟨hin, hrest⟩ := List.forall_mem_append.1 hnice
    obtain ⟨hone, hfit⟩ := List.forall_mem_cons.1 hfit
    refine ih hrest (ihin hin he fun errand herrand => ?_) hfit
    obtain ⟨goal, hgoal, rfl⟩ := List.mem_map.1 herrand
    exact hk.pass he hone hn hp hgoal
  | wait _ hn _ hu _ _ ih =>
    exact ih (List.forall_mem_cons.1 hnice).2 (hk.defer he hn hu) (List.forall_mem_cons.1 hfit).2
  | receive _ hn hp hu hc _ _ ihin ih =>
    obtain ⟨hthis, hrest⟩ := List.forall_mem_append.1 hnice
    obtain ⟨hreception, hin⟩ := List.forall_mem_append.1 hthis
    obtain ⟨hone, hfit⟩ := List.forall_mem_cons.1 hfit
    obtain ⟨hinv, hout⟩ := hk.receive he hone (hreception _ List.mem_cons_self) hn hp hu hc
    refine ih hrest (ihin hin hinv fun errand herrand => ?_) hfit
    obtain ⟨out, hmem, rfl⟩ := List.mem_map.1 herrand
    exact hout out hmem
  | leave _ _ ihin ih =>
    obtain ⟨hin, hrest⟩ := List.forall_mem_append.1 hnice
    obtain ⟨hone, hfit⟩ := List.forall_mem_cons.1 hfit
    refine ih hrest (ihin hin he fun errand herrand => ?_) hfit
    obtain ⟨c, hc, rfl⟩ := List.mem_map.1 herrand
    exact hk.leave he hone hc
  | collect _ _ _ ihin ih =>
    obtain ⟨hin, hrest⟩ := List.forall_mem_append.1 hnice
    obtain ⟨hone, hfit⟩ := List.forall_mem_cons.1 hfit
    refine ih hrest (ihin (List.forall_mem_cons.1 hin).2 (hk.collect _ _ he)
      fun errand herrand => ?_) hfit
    obtain ⟨id, hid, rfl⟩ := List.mem_map.1 herrand
    exact hk.call he hone hid
  | unheard _ _ _ ih =>
    exact ih (List.forall_mem_cons.1 hnice).2 (hk.report _ he) (List.forall_mem_cons.1 hfit).2
  | call _ _ _ _ ihin ih =>
    obtain ⟨hin, hrest⟩ := List.forall_mem_append.1 hnice
    obtain ⟨hone, hfit⟩ := List.forall_mem_cons.1 hfit
    refine ih hrest (ihin hin he fun errand herrand => ?_) hfit
    obtain ⟨id, hid, rfl⟩ := List.mem_map.1 herrand
    exact hk.call he hone hid

/-! ## Events -/

/-- What a unit sends when an event of its own is due. -/
def dueScript (e : Engine U) (event : Event) (unit : U) : Script U :=
  Device.emit unit event.outlet event.message (e.surroundings event.target)

/-- What follows when an event is handed back: its unit reacts, or the message leaves the subgraph. -/
inductive HandsBack (event : Event) (e : Engine U) : Trace → Engine U → Prop
  | gone : e.graph.node? event.target = none → HandsBack event e [] e
  | subgraph {n : Node U} {trace : Trace} {e' : Engine U} :
      e.graph.node? event.target = some n → n.body = .subgraph →
      Runs 1 [.dispatch ⟨event.target, .outlet event.outlet, event.message⟩] e trace e' →
      HandsBack event e trace e'
  | unit {n : Node U} {unit : U} {trace : Trace} {e' : Engine U} :
      e.graph.node? event.target = some n → n.body = .device unit →
      Runs 1 (((e.dueScript event unit).sends event.target e.queue).map .dispatch)
        (e.reactQuietly event.target unit (e.dueScript event unit)) trace e' →
      HandsBack event e
        (((e.dueScript event unit).happenings event.target (Device.label unit) e.queue).map (0, ·) ++
          trace) e'

section HandBack

variable {event : Event} {e : Engine U}

theorem handBack_gone (hn : e.graph.node? event.target = none) : handBack event e = e := by
  rw [handBack]
  simp only [hn]

variable {n : Node U} (hn : e.graph.node? event.target = some n)
include hn

theorem handBack_subgraph (hu : n.body = .subgraph) :
    handBack event e =
      runAll 1 [.dispatch ⟨event.target, .outlet event.outlet, event.message⟩] e := by
  have h := flush_eq (unposted_deliver (U := U) (maxDepth - 1)) e e.outbox
    [⟨event.target, .outlet event.outlet, event.message⟩]
  have hkeep := (unposted_dispatchAll (unposted_deliver (U := U) (maxDepth - 1))
    [⟨event.target, .outlet event.outlet, event.message⟩]).outbox e
  rw [← hkeep, withOutbox_self, hkeep, ← Array.push_eq_append] at h
  rw [handBack]
  simp only [hn, hu]
  exact h

theorem handBack_unit {unit : U} (hu : n.body = .device unit) :
    handBack event e =
      runAll 1 (((e.dueScript event unit).sends event.target e.queue).map .dispatch)
        (e.reactQuietly event.target unit (e.dueScript event unit)) := by
  rw [handBack, runAll_dispatch]
  simp only [hn, hu]
  exact flush_react (unposted_deliver _) event.target unit (e.dueScript event unit) e

end HandBack

/-- What follows from an event is what the engine does. -/
theorem HandsBack.eq {event : Event} {e e' : Engine U} {trace : Trace}
    (h : HandsBack event e trace e') : e' = handBack event e := by
  cases h with
  | gone hn => exact (handBack_gone hn).symm
  | subgraph hn hu hrun => rw [handBack_subgraph hn hu, eq_runAll_of_runs hrun]
  | unit hn hu hrun => rw [handBack_unit hn hu, eq_runAll_of_runs hrun]

theorem HandsBack.unique {event : Event} {e e₁ e₂ : Engine U} {trace₁ trace₂ : Trace}
    (h₁ : HandsBack event e trace₁ e₁) (h₂ : HandsBack event e trace₂ e₂) : trace₁ = trace₂ := by
  cases h₁ with
  | gone hn =>
    cases h₂ with
    | gone => rfl
    | subgraph hn' | unit hn' => simp [hn] at hn'
  | subgraph hn hu h =>
    cases h₂ with
    | gone hn' => simp [hn] at hn'
    | subgraph _ _ h' => exact h.unique h'
    | unit hn' hu' =>
      cases hn.symm.trans hn'
      simp [hu] at hu'
  | unit hn hu h =>
    cases h₂ with
    | gone hn' => simp [hn] at hn'
    | subgraph hn' hu' =>
      cases hn.symm.trans hn'
      simp [hu] at hu'
    | unit hn' hu' h' =>
      cases hn.symm.trans hn'
      cases hu.symm.trans hu'
      rw [h.unique h']

theorem exists_handsBack (event : Event) (e : Engine U) :
    ∃ trace, HandsBack event e trace (handBack event e) := by
  cases hn : e.graph.node? event.target with
  | none => exact ⟨[], by rw [handBack_gone hn]; exact .gone hn⟩
  | some n =>
    cases hu : n.body with
    | subgraph =>
      rw [handBack_subgraph hn hu]
      obtain ⟨trace, hrun⟩ := exists_runs 1 _ e
      exact ⟨trace, .subgraph hn hu hrun⟩
    | device unit =>
      rw [handBack_unit hn hu]
      obtain ⟨trace, hrun⟩ := exists_runs 1
        (((e.dueScript event unit).sends event.target e.queue).map .dispatch)
        (e.reactQuietly event.target unit (e.dueScript event unit))
      exact ⟨_, .unit hn hu hrun⟩

theorem HandsBack.journal {event : Event} {e e' : Engine U} {trace : Trace}
    (h : HandsBack event e trace e') :
    e'.journal = e.journal ++ (trace.map Prod.snd).toArray := by
  cases h with
  | gone => simp
  | subgraph _ _ hrun => exact hrun.journal
  | unit _ _ hrun =>
    rw [hrun.journal, journal_reactQuietly]
    simp [Function.comp_def]

theorem HandsBack.depth {event : Event} {e e' : Engine U} {trace : Trace}
    (h : HandsBack event e trace e') :
    ∀ entry ∈ trace, entry.1 ≤ maxDepth ∧ (Reaches entry.2 → entry.1 < maxDepth) := by
  cases h with
  | gone => exact fun _ h => by cases h
  | subgraph _ _ hrun => exact hrun.depth (by decide)
  | unit _ _ hrun =>
    refine List.forall_mem_append.2 ⟨fun entry hentry => ?_, hrun.depth (by decide)⟩
    obtain ⟨h, hmem, rfl⟩ := List.mem_map.1 hentry
    exact ⟨Nat.zero_le _, fun hr => (not_reaches_of_mem_happenings hmem hr).elim⟩

end Engine
end Patchbay
