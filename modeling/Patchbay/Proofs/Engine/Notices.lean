import Patchbay.Proofs.Engine.Arrivals
import Patchbay.Proofs.Queue

/-!
# What units have been told

The journal holds every notice that a unit was given of its stream connections. Only edits give
notices, so blocks leave none (`untold_of_played`). Between commands none is under way in the graph
(`pending_of_reachable`), and so a command that is refused, or a cancellation that finds nothing, leaves
the engine exactly as it was (`refused_unchanged`).
-/

namespace Patchbay

variable {U : Type} [Device U]

/-- The notice that a unit was given. -/
def Happening.notice? : Happening → Option Notice
  | .told notice => some notice
  | _ => none

/-- The notices that units were given, oldest first. -/
def Journal.notices (j : Journal) : List Notice := j.toList.filterMap Happening.notice?

namespace Journal

theorem notices_append (j j' : Journal) : notices (j ++ j') = j.notices ++ j'.notices := by
  simp [notices]

theorem notices_push (j : Journal) {h : Happening} (hh : h.notice? = none) :
    notices (j.push h) = j.notices := by
  simp [notices, hh]

theorem notices_told (notices : Array Notice) :
    Journal.notices (notices.map .told) = notices.toList := by
  rw [Journal.notices, Array.toList_map, List.filterMap_map]
  exact List.filterMap_some

end Journal

namespace Engine

variable {own : UnitId → Prop} {command : Command U} {e e' e'' : Engine U}

/-- That no unit has been told anything since. -/
structure Untold (e e' : Engine U) : Prop where
  journal : e'.journal.notices = e.journal.notices
  pending : e'.graph.notices = e.graph.notices

omit [Device U] in
theorem Untold.refl (e : Engine U) : e.Untold e := ⟨rfl, rfl⟩

omit [Device U] in
theorem Untold.trans (h : e.Untold e') (h' : e'.Untold e'') : e.Untold e'' :=
  ⟨h'.journal.trans h.journal, h'.pending.trans h.pending⟩

omit [Device U] in
theorem untold_record (e : Engine U) {a : Happening} (ha : a.notice? = none) :
    e.Untold (e.record a) := ⟨Journal.notices_push _ ha, rfl⟩

omit [Device U] in
/-- An edit leads to a record of what units were told in it. -/
theorem notices_withGraph (e : Engine U) (g : Graph U) :
    (e.withGraph g).journal.notices = e.journal.notices ++ g.notices.toList := by
  show Journal.notices (e.journal ++ g.notices.map .told) = _
  rw [Journal.notices_append, Journal.notices_told]

/-! ## Blocks -/

theorem untold_reactQuietly (e : Engine U) (id : UnitId) (unit : U) (script : Script U) :
    e.Untold (e.reactQuietly id unit script) := by
  have hnone : Journal.notices (script.happenings id (Device.label unit) e.queue).toArray = [] := by
    refine List.filterMap_eq_nil_iff.2 fun a ha => ?_
    exact script.forall_happenings (P := fun a => a.notice? = none) (fun _ => rfl) (fun _ _ => rfl)
      (fun _ => rfl) e.queue a (by simpa using ha)
  obtain ⟨unit', hg⟩ := graph_reactQuietly e id unit script
  refine ⟨?_, by rw [hg]; rfl⟩
  rw [journal_reactQuietly, Journal.notices_append, hnone, List.append_nil]

theorem untold_received (e : Engine U) (target : UnitId) (unit : U) (inlet : Nat)
    (message : Message) : e.Untold (e.received target unit inlet message) :=
  (untold_record e (a := .received target inlet message) rfl).trans (untold_reactQuietly _ target unit _)

theorem untold_of_move (h : Move own e e') : e.Untold e' := by
  have hrecord : ∀ {a : Happening}, a.notice? = none → Journal.notices (e.journal.push a) = e.journal.notices :=
    fun ha => Journal.notices_push e.journal ha
  cases h with
  | ripple h =>
    cases h with
    | report | collect | defer => exact ⟨hrecord rfl, rfl⟩
    | receive inlet message => exact untold_received e _ _ inlet message
  | fall | compute => exact ⟨hrecord rfl, rfl⟩
  | emit => exact untold_reactQuietly ..
  | take _ hnext =>
    obtain ⟨n, rest, -, -, rfl⟩ := nextPending?_eq_some hnext
    exact ⟨rfl, rfl⟩
  | receive inlet message => exact untold_received e _ _ inlet message
  | pool | calm => exact ⟨rfl, rfl⟩

theorem untold_of_moves (h : Moves own e e') : e.Untold e' :=
  h.keeps (P := e.Untold) (fun _ _ hm he => he.trans (untold_of_move hm)) (.refl e)

theorem untold_of_compile {plan : Plan} (h : compile e = .ok plan e') : e.Untold e' := by
  obtain ⟨g, hg, rfl⟩ := compile_eq_ok.1 h
  rcases Graph.compile_cases hg with ⟨-, rfl⟩ | ⟨-, d, -, -, rfl⟩ <;> exact ⟨rfl, rfl⟩

/-- No unit is told anything in a block. -/
theorem untold_of_played {input samples : Samples} {outLength : Nat}
    (h : process input outLength e = .ok samples e') : e.Untold e' := by
  obtain ⟨drained, plan, planned, ended, hdrain, hplan, hplay, rfl⟩ := process_eq_ok h
  have hopened : e.Untold (openBlock input e) := ⟨Journal.notices_push _ rfl, rfl⟩
  have hdrained := hopened.trans (untold_of_moves (moves_drain (fun _ => True) hdrain))
  have hended := (hdrained.trans (untold_of_compile hplan)).trans (untold_of_moves (moves_play hplay))
  exact ⟨hended.journal, hended.pending⟩

/-! ## Between commands -/

theorem pending_of_deed (h : Deed command e e') (he : e.graph.notices = #[]) :
    e'.graph.notices = #[] := by
  cases h with
  | idle | scheduled | cancelled | sent | unheard | listened | taken => exact he
  | declined | edited | removed => rfl
  | planned hplan => exact (untold_of_compile hplan).pending.trans he
  | played _ hp => exact (untold_of_played hp).pending.trans he

/-- Between commands no notice is under way. -/
theorem pending_of_reachable {settings : Settings} (h : Reachable settings e) :
    e.graph.notices = #[] := by
  refine h.keeps (P := fun e => e.graph.notices = #[]) (fun e hnew => ?_) fun _ _ _ => pending_of_deed
  rw [graph_of_new hnew]
  rfl

/-! ## Commands that are refused -/

omit [Device U] in
theorem withGraph_self (he : e.graph.notices = #[]) : e.withGraph e.graph = e := by
  rw [withGraph, he, Array.map_empty, Array.append_empty, ← he]

/-- That a change which is refused leaves an engine as it was. -/
def Traceless {α : Type} (change : Change U α) (e : Engine U) : Prop :=
  ∀ why e', change e = .error (.refused why) e' → e' = e

omit [Device U] in
theorem Traceless.map {α β : Type} {f : α → β} {change : Change U α} (h : Traceless change e) :
    Traceless (f <$> change) e := by
  intro why e' heq
  change EStateM.map f change e = _ at heq
  unfold EStateM.map at heq
  cases hr : change e with
  | ok a e₁ =>
    rw [hr] at heq
    cases heq
  | error how e₁ =>
    rw [hr] at heq
    cases heq
    exact h _ _ hr

omit [Device U] in
theorem traceless_edit {α : Type} {change : Edit U α} (hc : change.Proper)
    (he : e.graph.notices = #[]) : Traceless (edit change) e := by
  intro why e' h
  unfold edit at h
  cases hr : change e.graph with
  | ok a g =>
    rw [hr] at h
    cases h
  | error how g =>
    rw [hr] at h
    cases h
    rw [hc.refused hr, withGraph_self he]

/-- What has been found inside a node does not matter if it may not be removed. -/
theorem traceless_remove (id : UnitId) (he : e.graph.notices = #[]) : Traceless (remove id) e := by
  intro why e' h
  unfold remove at h
  rw [run_get_bind, run_bind] at h
  cases hr : edit (Edit.remove id) e with
  | ok body e₁ =>
    rw [hr] at h
    cases h
  | error how e₁ =>
    rw [hr] at h
    cases h
    exact traceless_edit (Edit.proper_remove id) he _ _ hr

omit [Device U] in
theorem traceless_schedule (target : UnitId) (outlet : Nat) (message : Message) :
    Traceless (schedule target outlet message) e := by
  intro why e' h
  unfold schedule at h
  rw [run_get_bind] at h
  cases hn : e.graph.node? target with
  | none =>
    simp only [hn] at h
    cases h
    rfl
  | some n =>
    simp only [hn] at h
    by_cases hout : n.ports.outlets ≤ outlet
    · simp only [hout, if_true] at h
      cases h
      rfl
    · simp only [hout, if_false] at h
      cases h

theorem traceless_perform (c : Command U) (he : e.graph.notices = #[]) : Traceless (perform c) e := by
  have hwork : ∀ {α : Type} (work : Work U α), Traceless (ofWork work) e := by
    intro α work why e' h
    unfold ofWork at h
    cases hr : work e <;> rw [hr] at h <;> cases h
  cases c with
  | addUnit owner unit => exact (traceless_edit (Edit.proper_add owner (.device unit)) he).map
  | addSubgraph owner => exact (traceless_edit (Edit.proper_add owner .subgraph) he).map
  | remove node => exact (traceless_remove node he).map
  | connect c => exact (traceless_edit (Edit.proper_connect c) he).map
  | disconnect c =>
    intro why e' h
    change (edit (Edit.disconnect c) >>= fun _ => pure Reply.disconnected) e = _ at h
    rw [run_bind] at h
    cases hr : edit (Edit.disconnect c) e with
    | ok a e₁ =>
      rw [hr] at h
      cases h
    | error how e₁ =>
      rw [hr] at h
      cases h
      exact traceless_edit (Edit.proper_disconnect c) he _ _ hr
  | schedule target outlet message => exact (traceless_schedule target outlet message).map
  | cancel | sendTo | registerExternal | unregisterExternal | takeExternal => exact fun _ _ h => by cases h
  | compile => exact (hwork _).map
  | process => exact (hwork _).map

/-- Why a command would be refused. -/
def refusal? (e : Engine U) (c : Command U) : Option GraphError :=
  match perform c e with
  | .error (.refused why) _ => some why
  | _ => none

theorem refusal?_eq_some {c : Command U} {why : GraphError} :
    e.refusal? c = some why ↔ ∃ e', perform c e = .error (.refused why) e' := by
  unfold refusal?
  split
  · next why' e' heq => simp [heq]
  · next hnot => simpa using fun e' heq => hnot why e' heq

/-- A cancellation answers whether the event was pending. -/
theorem perform_cancel (target : UnitId) (outlet : Nat) (id : EventId) (e : Engine U) :
    perform (.cancel target outlet id) e =
      .ok (.cancelled (e.queue.find? target outlet id).isSome)
        { e with queue := e.queue.remove target outlet id } := rfl

/-- Whatever commands have led to an engine, one that is refused leaves it exactly as it was: its nodes
and connections, what its units are and have been told, its names and its plan, its events and the
number that the next one gets. So does the cancellation of an event that is not pending. -/
theorem refused_unchanged {settings : Settings} (h : Reachable settings e) :
    (∀ c why e', perform c e = .error (.refused why) e' → e' = e) ∧
    ∀ target outlet id e', perform (.cancel target outlet id) e = .ok (.cancelled false) e' → e' = e := by
  refine ⟨fun c => traceless_perform c (pending_of_reachable h), fun target outlet id e' hcancel => ?_⟩
  rw [perform_cancel, EStateM.Result.ok.injEq, Reply.cancelled.injEq] at hcancel
  obtain ⟨hnone, rfl⟩ := hcancel
  rw [Queue.remove_eq_self (Option.isNone_iff_eq_none.1 (by simpa using hnone))]

/-- A connection that would close a circle, a node that stands for a port, and an event that there has
never been. -/
theorem refused_unchanged_circle : ∃ e : Engine CatalogueUnit, Reachable smallBlocks e ∧
    e.graph.plan.isSome = true ∧
    perform (.connect ⟨⟨1⟩, 0, ⟨0⟩, 0⟩) e = .error (.refused (.cycleDetected ⟨⟨1⟩, 0, ⟨0⟩, 0⟩)) e ∧
    perform (.remove ⟨3⟩) e = .error (.refused (.boundaryRemoval ⟨3⟩)) e ∧
    perform (.cancel ⟨0⟩ 0 ⟨7⟩) e = .ok (.cancelled false) e := by
  obtain ⟨e, hroomy, hrefused⟩ := exists_roomy smallBlocks
    [ .addUnit none (CatalogueUnit.streamOperator { op := .add, right := 0 }),
      .addUnit none (.streamOperator { op := .add, right := 0 }), .connect ⟨⟨0⟩, 0, ⟨1⟩, 0⟩,
      .addSubgraph none, .addUnit (some ⟨2⟩) (.port ⟨.inlet, true⟩), .compile ]
    (fun e => decide (e.graph.plan.isSome = true ∧ e.queue.events = [] ∧
      e.refusal? (.connect ⟨⟨1⟩, 0, ⟨0⟩, 0⟩) = some (.cycleDetected ⟨⟨1⟩, 0, ⟨0⟩, 0⟩) ∧
      e.refusal? (.remove ⟨3⟩) = some (.boundaryRemoval ⟨3⟩))) (by cbv)
  obtain ⟨hplan, hempty, hconnect, hremove⟩ := of_decide_eq_true hrefused
  obtain ⟨hsame, hnothing⟩ := refused_unchanged hroomy.reachable
  obtain ⟨e₁, hconnect⟩ := refusal?_eq_some.1 hconnect
  obtain ⟨e₂, hremove⟩ := refusal?_eq_some.1 hremove
  have hcancel := perform_cancel ⟨0⟩ 0 ⟨7⟩ e
  rw [Queue.find?, hempty] at hcancel
  refine ⟨e, hroomy.reachable, hplan, ?_, ?_, ?_⟩
  · rw [hconnect, hsame _ _ _ hconnect]
  · rw [hremove, hsame _ _ _ hremove]
  · rw [hcancel, hnothing _ _ _ _ hcancel]
    rfl

end Engine
end Patchbay
