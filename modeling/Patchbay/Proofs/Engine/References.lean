import Patchbay.Proofs.Engine.Arrivals
import Patchbay.Proofs.Graph.Enrolling
import Patchbay.Proofs.Queue

/-!
# No reference dangles

An engine keeps three stores, the graph, the registry and the queue, and each refers to units by their
numbers. Whatever commands an engine has been given, all these units are there (`Coherent`), and
after a node has been removed nothing mentions it, or what lay within it (`coherent_of_reachable`).
-/

namespace Patchbay

open Relation

variable {U : Type} [Device U]

namespace Queue

/-- That the events of a queue are for certain units. -/
def Targets (q : Queue) (P : UnitId → Prop) : Prop := ∀ event ∈ q.events, P event.target

variable {q q' : Queue} {P : UnitId → Prop}

theorem Targets.of_sublist (h : q.Targets P) (hs : q'.events.Sublist q.events) : q'.Targets P :=
  fun event he => h event (hs.subset he)

theorem Targets.insert (h : q.Targets P) {target : UnitId} (ht : P target) (outlet : Nat)
    (message : Message) : (q.insert target outlet message).2.Targets P := by
  intro event he
  rcases List.mem_cons.1 ((q.insert_perm target outlet message).mem_iff.1 he) with rfl | he
  · exact ht
  · exact h event he

theorem Targets.foldl_insert (h : q.Targets P) {targets : List UnitId} (ht : ∀ x ∈ targets, P x)
    (message : Message) :
    (targets.foldl (fun q id => (q.insert id 0 message).2) q).Targets P := by
  induction targets generalizing q with
  | nil => exact h
  | cons x targets ih =>
    exact ih (h.insert (ht x List.mem_cons_self) 0 message) fun y hy =>
      ht y (List.mem_cons_of_mem _ hy)

end Queue

/-- Those who receive messages for a name sit at a seat. -/
theorem Names.exists_seat_of_receivers {n : Names} (hn : n.Sound) {name : String} {x : UnitId}
    (h : x ∈ n.receivers name) : ∃ s, x ∈ n.seated s := by
  rw [Names.receivers] at h
  cases hf : n.receiverLists.find? (·.1.text = name) with
  | none => simp [hf] at h
  | some p =>
    rw [hf] at h
    exact ⟨.receiver p.1, (seated_of_receivers hn (List.mem_of_find?_eq_some hf)).symm ▸ h⟩

namespace Engine

/-- That all units that an engine refers to are there, and the registry lists whom it should. -/
structure Coherent (e : Engine U) : Prop where
  events : e.queue.Targets fun x => e.graph.contains x = true
  enrolled : e.graph.Enrolled
  connections : ∀ c ∈ e.graph.connections,
    e.graph.contains c.source = true ∧ e.graph.contains c.dest = true

/-- That nothing in an engine mentions a number. -/
structure Forgets (e : Engine U) (x : UnitId) : Prop where
  graph : e.graph.Forgets x
  events : ∀ event ∈ e.queue.events, event.target ≠ x
  outbox : ∀ out ∈ e.outbox, out.source ≠ x

variable {own : UnitId → Prop} {made : Body U → Prop} {command : Command U} {e e' : Engine U}
  {P : UnitId → Prop}

/-! ## Events -/

omit [Device U] in
/-- A script schedules events for its own unit only. -/
theorem targets_carryOut {id : UnitId} (hid : P id) (label : String) (script : Script U)
    (h : e.queue.Targets P) : (carryOut id label script e).2.queue.Targets P := by
  induction script generalizing e with
  | done unit => exact h
  | send outlet message next ih => exact ih h
  | sendTo name message next ih => exact ih h
  | schedule outlet message next ih => exact ih _ (h.insert hid outlet message)
  | cancel outlet event next ih => exact ih _ (h.of_sublist (e.queue.remove_sublist ..))
  | report severity text next ih => exact ih h

theorem targets_reactQuietly {id : UnitId} (hid : P id) (unit : U) (script : Script U)
    (h : e.queue.Targets P) : (e.reactQuietly id unit script).queue.Targets P :=
  targets_carryOut hid (Device.label unit) script h

/-- While a block is computed, events are scheduled for units that are there. -/
theorem targets_of_move (h : Move own e e') (hP : ∀ x, e.graph.contains x = true → P x)
    (ht : e.queue.Targets P) : e'.queue.Targets P := by
  have hlive : ∀ {x n}, e.graph.node? x = some n → P x := fun hn =>
    hP _ (Graph.contains_iff.2 ⟨_, hn⟩)
  cases h with
  | ripple h =>
    cases h with
    | report | collect | defer => exact ht
    | receive inlet message hn hu =>
      exact targets_reactQuietly (e := e.record _) (hlive hn) _ _ ht
  | fall hpop =>
    refine ht.of_sublist ?_
    rw [(Queue.popBefore?_eq_some hpop).1]
    exact List.sublist_cons_self _ _
  | emit outlet message hn hu => exact targets_reactQuietly (hlive hn) _ _ ht
  | take _ hnext =>
    obtain ⟨n, rest, -, -, rfl⟩ := nextPending?_eq_some hnext
    exact ht
  | receive inlet message _ hn hu =>
    exact targets_reactQuietly (e := e.record _) (hlive hn) _ _ ht
  | pool | compute | calm => exact ht

theorem targets_of_moves (h : Moves own e e')
    (ht : e.queue.Targets fun x => e.graph.contains x = true) :
    e'.queue.Targets fun x => e'.graph.contains x = true := by
  induction h with
  | refl => exact ht
  | @tail e₁ e₂ _ hmove ih =>
    have hsame := (works_of_move .any hmove).graph.shape.contains
    have := targets_of_move hmove (fun _ => id) ih
    exact fun event he => (hsame _).trans (this event he)

/-! ## Commands -/

/-- What is kept from one command to the next. -/
structure Settled (e : Engine U) : Prop where
  events : e.queue.Targets fun x => e.graph.contains x = true
  once : e.graph.names.Once

omit [Device U] in
/-- Events stay for units that are there if no node goes. -/
theorem Settled.of_contains (h : e.Settled) (hq : e'.queue = e.queue)
    (hg : ∀ x, e.graph.contains x = true → e'.graph.contains x = true)
    (ho : e'.graph.names.Once) : e'.Settled where
  events := by
    rw [hq]
    exact fun event he => hg _ (h.events event he)
  once := ho

theorem settled_of_moves (h : Moves own e e') (hs : e.Settled) : e'.Settled where
  events := targets_of_moves h hs.events
  once := (works_of_moves .any h).graph.names.once hs.once

theorem settled_of_compile {plan : Plan} (h : compile e = .ok plan e') (hs : e.Settled) :
    e'.Settled := by
  obtain ⟨g, hg, rfl⟩ := compile_eq_ok.1 h
  rcases Graph.compile_cases hg with ⟨-, rfl⟩ | ⟨-, d, -, -, rfl⟩
  · exact hs
  · exact ⟨hs.events, hs.once⟩

theorem settled_of_process {input samples : Samples} {outLength : Nat}
    (h : process input outLength e = .ok samples e') (hs : e.Settled) : e'.Settled := by
  obtain ⟨drained, plan, planned, ended, hdrain, hplan, hplay, rfl⟩ := process_eq_ok h
  have hopened : (openBlock input e).Settled :=
    ⟨hs.events, (Names.sameSeats_clearBuses _).once hs.once⟩
  have hdrained := settled_of_moves (moves_drain (fun _ => True) hdrain) hopened
  have hended := settled_of_moves (moves_play hplay) (settled_of_compile hplan hdrained)
  exact ⟨hended.events, hended.once⟩

theorem settled_of_edited {g : Graph U} (hg : e.graph.Sound) (h : Edited made e.graph g)
    (hs : e.Settled) : (e.withGraph g).Settled := by
  cases h with
  | added _ h =>
    have hkept : ∀ x, e.graph.contains x = true → g.contains x = true := fun x hx =>
      Edit.contains_add h hx
    have honce : g.names.Once := Edit.once_add hg hs.once h
    exact hs.of_contains rfl hkept honce
  | connected h =>
    exact hs.of_contains rfl (fun x hx => (Edit.contains_connect h x).trans hx)
      (Edit.names_connect h ▸ hs.once)
  | disconnected h =>
    exact hs.of_contains rfl (fun x hx => (Edit.contains_disconnect h x).trans hx)
      (Edit.names_disconnect h ▸ hs.once)

/-- With a node go the events of all that lay within it. -/
theorem settled_of_remove {id : UnitId} {body : Body U} {g : Graph U} (hg : e.graph.Sound)
    (h : Edit.remove id e.graph = .ok body g) (hs : e.Settled) :
    ({ e.withGraph g with
        queue := (e.graph.descendants id).foldl Queue.removeUnit e.queue } : Engine U).Settled where
  events event he := by
    obtain ⟨⟨n, hn, -⟩, -⟩ := Edit.remove_eq_ok h
    rw [Queue.foldl_removeUnit] at he
    obtain ⟨he, hgone⟩ := List.mem_filter.1 he
    have hgone := of_decide_eq_true hgone
    rw [Graph.mem_descendants hg.nested (Graph.contains_iff.2 ⟨n, hn⟩)] at hgone
    exact (Edit.contains_of_remove hg h _).2 ⟨hs.events event he, hgone⟩
  once := show g.names.Once from Edit.once_remove hg hs.once h

theorem settled_of_deed (hg : e.graph.Sound) (h : Deed command e e') (hs : e.Settled) : e'.Settled := by
  cases h with
  | idle | declined | taken | unheard => exact ⟨hs.events, hs.once⟩
  | edited h => exact settled_of_edited hg h hs
  | removed h => exact settled_of_remove hg h hs
  | scheduled message hn hout =>
    exact ⟨hs.events.insert (Graph.contains_iff.2 ⟨_, hn⟩) _ message, hs.once⟩
  | cancelled target outlet id =>
    exact ⟨hs.events.of_sublist (e.queue.remove_sublist ..), hs.once⟩
  | sent name message =>
    refine ⟨hs.events.foldl_insert (fun x hx => ?_) message, hs.once⟩
    obtain ⟨s, hs⟩ := Names.exists_seat_of_receivers hg.registered.names hx
    obtain ⟨role, hrole, -⟩ := Option.map_eq_some_iff.1 (hg.registered.seated.1 hs)
    exact Graph.contains_of_registration? hrole
  | listened externals =>
    exact ⟨hs.events, (e.graph.names.sameSeats_externals externals).once hs.once⟩
  | planned h => exact settled_of_compile h hs
  | played _ h => exact settled_of_process h hs

theorem settled_of_reachable {settings : Settings} (h : Reachable settings e) : e.Settled := by
  induction h with
  | @start e hnew =>
    have hqueue : e.queue = {} := by
      obtain ⟨_, -, hnew⟩ := bind_eq_ok.1 hnew
      obtain ⟨_, -, hnew⟩ := bind_eq_ok.1 hnew
      obtain ⟨_, -, hnew⟩ := bind_eq_ok.1 hnew
      cases hnew
      rfl
    refine ⟨?_, ?_⟩
    · rw [hqueue]
      intro event he
      cases he
    · rw [graph_of_new hnew]
      exact Names.once_fresh settings.blockSize
  | step hreach hafter ih =>
    exact settled_of_deed (kept_of_reachable .any hreach).sound (deed_of_after hafter) ih

/-! ## Reachable engines -/

/-- What removing a node does to the graph. -/
theorem graph_of_remove {id : UnitId} {reply : Reply U}
    (h : perform (.remove id) e = .ok reply e') :
    ∃ body g, Edit.remove id e.graph = .ok body g ∧ e'.graph = { g with notices := #[] } := by
  obtain ⟨body, g, hg, -, rfl⟩ := perform_remove_eq_ok.1 h
  exact ⟨body, g, hg, rfl⟩

/-- Whatever commands have led to an engine, every event is for a unit that is there, the registry lists
those units that have a role, each once and at its own seat, and connections join units that are there.
When a node is removed, nothing mentions it afterwards, or anything that lay within it. -/
theorem coherent_of_reachable {settings : Settings} (h : Reachable settings e) :
    e.Coherent ∧ ∀ id reply e', perform (.remove id) e = .ok reply e' →
      ∀ x, e.graph.Within x id → e'.Forgets x := by
  have hsound := (kept_of_reachable .any h).sound
  have hsettled := settled_of_reachable h
  refine ⟨⟨hsettled.events, Graph.enrolled_of_once hsound.registered hsettled.once,
    fun c hc => ⟨hsound.wired.source c hc, hsound.wired.dest c hc⟩⟩, fun id reply e' hp x hx => ?_⟩
  have hreach : Reachable settings e' := h.step (c := .remove id) (by rw [after, hp])
  obtain ⟨body, g, hremove, hgraph⟩ := graph_of_remove hp
  have hforgets : e'.graph.Forgets x := by
    have hf := Edit.forgets_of_remove hsound hremove hx
    rw [hgraph]
    exact ⟨hf.gone, hf.owner, hf.ends, hf.roster, hf.plan⟩
  refine ⟨hforgets, fun event he => ?_, fun out hout => ?_⟩
  · rintro rfl
    exact Bool.eq_false_iff.1 hforgets.gone ((settled_of_reachable hreach).events event he)
  · rw [outbox_of_reachable hreach] at hout
    exact absurd hout (Array.not_mem_empty out)

/-- A subgraph is removed in which another one holds a unit with a name and with an event. -/
theorem coherent_of_reachable_nested : ∃ (e e' : Engine CatalogueUnit) (reply : Reply CatalogueUnit),
    Reachable smallBlocks e ∧ perform (.remove ⟨0⟩) e = .ok reply e' ∧
    e.graph.owner? ⟨2⟩ = some ⟨1⟩ ∧ e.graph.owner? ⟨1⟩ = some ⟨0⟩ ∧
    e.graph.names.roster = [⟨2⟩, ⟨3⟩] ∧ e.queue.events.map Event.target = [⟨2⟩, ⟨3⟩] ∧
    e.Coherent ∧ e'.Forgets ⟨2⟩ := by
  obtain ⟨e, hroomy, h⟩ := exists_roomy smallBlocks
    [ .addSubgraph none, .addSubgraph (some ⟨0⟩),
      .addUnit (some ⟨1⟩) (CatalogueUnit.messageReceiver ⟨.ofString "loop"⟩),
      .addUnit none (.messageReceiver ⟨.ofString "loop"⟩), .sendTo "loop" (.bang 0) ]
    (fun e => decide (e.graph.owner? ⟨2⟩ = some ⟨1⟩ ∧ e.graph.owner? ⟨1⟩ = some ⟨0⟩ ∧
        e.graph.names.roster = [⟨2⟩, ⟨3⟩] ∧ e.queue.events.map Event.target = [⟨2⟩, ⟨3⟩]) &&
      match perform (.remove ⟨0⟩) e with
      | .ok .. => true
      | .error .. => false) (by decide +kernel)
  obtain ⟨h, hp⟩ := (Bool.and_eq_true ..).mp h
  obtain ⟨houter, hinner, hroster, hevents⟩ := of_decide_eq_true h
  cases hr : perform (.remove ⟨0⟩) e with
  | error how e' =>
    rw [hr] at hp
    cases hp
  | ok reply e' =>
    obtain ⟨hcoherent, hforgets⟩ := coherent_of_reachable hroomy.reachable
    have hwithin : e.graph.Within ⟨2⟩ ⟨0⟩ := .head houter (.single hinner)
    exact ⟨e, e', reply, hroomy.reachable, hr, houter, hinner, hroster, hevents, hcoherent,
      hforgets ⟨0⟩ reply e' hr ⟨2⟩ hwithin⟩

end Engine
end Patchbay
