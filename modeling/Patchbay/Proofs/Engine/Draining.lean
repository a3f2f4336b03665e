import Mathlib.Data.Multiset.DershowitzManna
import Patchbay.Proofs.Engine.Clock
import Patchbay.Proofs.Engine.Waking

/-!
# When draining ends

Events that fall due while a block is drained may bring about more of them. Each of these lies later, or
belongs to a node from which no way leads back (`weight_lt_of_ensues`), as long as each circle of
messages through a `delay` leads through one that leads on, and none through one that may go back in
time. As there are finitely many nodes and times, draining ends then, and nothing more is due
(`draining_ends`).

Nothing keeps a `delay` from being set to no time at all. If it hears itself, draining never ends
(`draining_never_ends`).
-/

namespace Patchbay

open Relation

/-! ## Counting nodes -/

namespace Graph

variable {g : Graph CatalogueUnit} {r : UnitId → UnitId → Prop} {x y : UnitId} {stop : Float}

/-- How many nodes a relation leads to. -/
noncomputable def reach (r : UnitId → UnitId → Prop) (x : UnitId) : ℕ := {y | ReflTransGen r x y}.ncard

theorem finite_reach (hr : ∀ x y, r x y → g.Wakes x y) (x : UnitId) :
    {y | ReflTransGen r x y}.Finite := by
  refine (g.ids.finite_toSet.insert x).subset fun y hy => ?_
  rcases ReflTransGen.cases_tail hy with rfl | ⟨z, -, hzy⟩
  · exact .inl rfl
  · obtain ⟨inlet, n, u, -, hn, -⟩ := hr z y hzy
    exact .inr (mem_ids.2 (contains_iff.2 ⟨n, hn⟩))

theorem reach_le (hr : ∀ x y, r x y → g.Wakes x y) (h : ReflTransGen r x y) : reach r y ≤ reach r x :=
  Set.ncard_le_ncard (fun _ hz => h.trans hz) (finite_reach hr x)

/-- Fewer nodes can be reached once there is no way back. -/
theorem reach_lt (hr : ∀ x y, r x y → g.Wakes x y) (h : TransGen r x y) (hcircle : ¬ TransGen r y y) :
    reach r y < reach r x := by
  refine Set.ncard_lt_ncard ⟨fun _ hz => h.to_reflTransGen.trans hz, fun hsub => ?_⟩ (finite_reach hr x)
  exact hcircle (TransGen.trans_right (hsub .refl) h)

/-- That each circle of messages through a `delay` leads through one that leads on, and none through one
that may go back in time. -/
structure Unhurried (g : Graph CatalogueUnit) (stop : Float) : Prop where
  wavers : ∀ x, g.Wavers x → ¬ TransGen g.Wakes x x
  hurries : ∀ x wait, g.Delays x wait → ¬ TransGen (g.Hurries stop) x x

/-- It is so if each `delay` waits for a millisecond or more, and none can be set anew. -/
theorem unhurried_of_delays (hstop : stop < 9007199254740992)
    (h : ∀ x wait, g.Delays x wait → 1 ≤ wait ∧ ∀ c ∈ g.connections, c.dest = x → c.inlet ≠ 1) :
    g.Unhurried stop := by
  have hsteady : ∀ x, ¬ g.Wavers x := by
    rintro x ⟨wait, hdelays, hneg | ⟨c, hc, hdest, hinlet⟩⟩
    · exact hneg (Double.le_of_le_of_le (by decide +kernel) (h x wait hdelays).1)
    · exact (h x wait hdelays).2 c hc hdest hinlet
  refine ⟨fun x hx => absurd hx (hsteady x), fun x wait hdelays hcircle => ?_⟩
  obtain ⟨y, -, -, hhurried⟩ := TransGen.tail'_iff.1 hcircle
  exact hhurried ⟨wait, hdelays, Double.leadsOn_of_one_le hstop (h x wait hdelays).1, hsteady x⟩

end Graph

/-- Something is replaced by finitely many smaller things. -/
theorem isDershowitzMannaLT_of_le {α : Type} [Preorder α] [DecidableEq α] {M R N : Multiset α} {a : α}
    (hM : M ≤ R + N) (hN : ∀ b ∈ N, b < a) : M.IsDershowitzMannaLT (a ::ₘ R) := by
  refine ⟨M ∩ R, M - R, a ::ₘ (R - M), Multiset.cons_ne_zero, ?_, ?_, fun b hb => ?_⟩
  · rw [add_comm, Multiset.sub_add_inter]
  · rw [Multiset.add_cons, add_comm, Multiset.inter_comm, Multiset.sub_add_inter]
  · exact ⟨a, Multiset.mem_cons_self _ _, hN b (Multiset.mem_of_le (tsub_le_iff_left.2 hM) hb)⟩

namespace Engine

/-! ## Weights of events -/

section Weights

variable {g : Graph CatalogueUnit} {stop start t : Float} {x : UnitId} {event : Event}

/-- How much may come of an event of a node that is due at a time. -/
noncomputable def weightAt (g : Graph CatalogueUnit) (stop : Float) (x : UnitId) (t : Float) :
    ℕ ×ₗ ℕ ×ₗ ℕ :=
  toLex (Graph.reach g.Wakes x, toLex (Double.later t, Graph.reach (g.Hurries stop) x))

/-- How much may come of an event. -/
noncomputable def weight (g : Graph CatalogueUnit) (stop start : Float) (event : Event) :
    ℕ ×ₗ ℕ ×ₗ ℕ :=
  weightAt g stop event.target (dueTime start event)

/-- Less may come of what ensues. -/
theorem weight_lt_of_ensues (hg : g.Unhurried stop) (hstart : start ≤ t)
    (h : g.Ensues stop x t event) : weight g stop start event < weightAt g stop x t := by
  have hwakes : ∀ x y, g.Wakes x y → g.Wakes x y := fun _ _ h => h
  have hhurries : ∀ x y, g.Hurries stop x y → g.Wakes x y := fun _ _ h => h.1
  have hdue : t ≤ event.timestamp → dueTime start event = event.timestamp := fun hle =>
    dueTime_eq (Double.le_of_le_of_le hstart hle)
  unfold weight weightAt
  cases h with
  | later hreach hlt =>
    rw [hdue (Double.le_of_lt hlt)]
    refine Prod.Lex.toLex_lt_toLex'.2 ⟨Graph.reach_le hwakes hreach, fun _ => ?_⟩
    exact Prod.Lex.toLex_lt_toLex.2 (.inl (Double.later_lt_later hlt))
  | wavering hreach hwavers =>
    exact Prod.Lex.toLex_lt_toLex.2 (.inl (Graph.reach_lt hwakes hreach (hg.wavers _ hwavers)))
  | hurried hreach hdelays hle =>
    rw [hdue hle]
    have hreach' : TransGen g.Wakes x event.target := TransGen.mono hhurries _ _ hreach
    refine Prod.Lex.toLex_lt_toLex'.2 ⟨Graph.reach_le hwakes hreach'.to_reflTransGen, fun _ => ?_⟩
    refine Prod.Lex.toLex_lt_toLex'.2 ⟨Double.later_le_later hle, fun _ => ?_⟩
    exact Graph.reach_lt hhurries hreach (hg.hurries _ _ hdelays)

end Weights

/-! ## Draining -/

section Draining

variable {g : Graph CatalogueUnit} {stop start : Float} {e e' : Engine CatalogueUnit}

/-- How much may come of all events in a queue. -/
noncomputable def weights (g : Graph CatalogueUnit) (stop start : Float) (e : Engine CatalogueUnit) :
    Multiset (ℕ ×ₗ ℕ ×ₗ ℕ) :=
  Multiset.map (weight g stop start) e.queue.events

/-- That draining has come so far in a block. -/
structure Drains (g : Graph CatalogueUnit) (start : Float) (e : Engine CatalogueUnit) : Prop where
  stands : g.Stands e.graph
  ordered : e.queue.Ordered
  blockStart : e.blockStart = start

variable (hg : g.Unhurried stop) (hstop : stop < 9007199254740992) (hstart : 0 ≤ start)
  (hle : start ≤ stop)
include hg hstop hstart hle

/-- An event is handed back, and less may come of all that are left. -/
theorem weights_lt_of_drainOne? (h : e.Drains g start) (hone : e.drainOne? stop = some e') :
    e'.Drains g start ∧ (e'.weights g stop start).IsDershowitzMannaLT (e.weights g stop start) := by
  have hworks := works_drainOne? CatalogueUnit.kindred hone
  unfold drainOne? at hone
  split at hone
  · cases hone
  next event queue hpop =>
  cases hone
  obtain ⟨hevents, hlt⟩ := Queue.popBefore?_eq_some hpop
  -- the event is due within the block
  have htime : event.timestamp.isNaN = false :=
    h.ordered.times event (hevents ▸ List.mem_cons_self)
  obtain ⟨hlow, hhigh⟩ := dueTime_mem htime hle hlt
  obtain ⟨trace, hback⟩ := exists_handsBack (e.onTime event)
    ({ e with queue }.record (.fellDue (e.onTime event)))
  have hunfolds := hback.unfolds hstop (Double.le_of_le_of_le hstart hlow) hhigh h.stands
    (Queue.ordered_popBefore? h.ordered hpop) (by rw [timestamp_onTime, h.blockStart])
  refine ⟨⟨hunfolds.stands, hunfolds.ordered, hworks.blockStart.trans h.blockStart⟩, ?_⟩
  obtain ⟨new, hsub, hnew⟩ := hunfolds.adds
  have hmap := Multiset.map_le_map (f := weight g stop start) (Multiset.coe_le.2 hsub)
  rw [← Multiset.coe_add, Multiset.map_add] at hmap
  have hweights : e.weights g stop start =
      weight g stop start event ::ₘ Multiset.map (weight g stop start) queue.events := by
    rw [weights, hevents]
    rfl
  rw [hweights]
  refine isDershowitzMannaLT_of_le hmap fun w hw => ?_
  obtain ⟨later, hlater, rfl⟩ := Multiset.mem_map.1 hw
  have hensues := hnew later (Multiset.mem_coe.1 hlater)
  rw [target_onTime] at hensues
  exact weight_lt_of_ensues hg hlow hensues

/-- Draining ends, for each event that is handed back leaves less to come. -/
theorem exists_drain (h : e.Drains g start) : ∃ rounds drained,
    drain stop rounds e = .ok ⟨⟩ drained ∧ drained.Drains g start ∧ drained.drainOne? stop = none := by
  have hwf : WellFounded fun e e' : Engine CatalogueUnit =>
      (e.weights g stop start).IsDershowitzMannaLT (e'.weights g stop start) :=
    InvImage.wf (weights g stop start) Multiset.wellFounded_isDershowitzMannaLT
  induction e using hwf.induction with
  | _ e ih =>
    cases hone : e.drainOne? stop with
    | none => exact ⟨1, e, drain_of_drainOne?_eq_none 0 hone, h, hone⟩
    | some e₁ =>
      obtain ⟨h₁, hlt⟩ := weights_lt_of_drainOne? hg hstop hstart hle h hone
      obtain ⟨rounds, drained, hdrain, hdrained⟩ := ih e₁ hlt h₁
      refine ⟨rounds + 1, drained, ?_, hdrained⟩
      rw [drain, run_get_bind]
      simp only [hone]
      exact hdrain

end Draining

/-! ## Blocks -/

/-- Draining ends, and then nothing more is due, if each circle of messages through a `delay` leads
through one that leads on, and none through one that may go back in time. Up to `2 ^ 53` milliseconds a
`metro` leads on. -/
theorem draining_ends {settings : Settings} (hrate : 0 < settings.sampleRate)
    {e : Engine CatalogueUnit} (h : Reachable settings e) (hend : e.blockEnd < 9007199254740992)
    (hunhurried : e.graph.Unhurried e.blockEnd) (input : Samples) : ∃ rounds drained,
      drain e.blockEnd rounds (openBlock input e) = .ok ⟨⟩ drained ∧
      ∀ event ∈ drained.queue.events, ¬ event.timestamp < e.blockEnd := by
  have hduration := duration_of_rate hrate
  have htimely := timely_of_reachable hduration h
  obtain ⟨hstart, hle⟩ := htimely.blockEnd hduration (Double.lt_iff.1 hend).1
  have hopened : (openBlock input e).Drains e.graph e.blockStart := by
    refine ⟨⟨⟨rfl, fun _ => rfl, rfl⟩, fun _ => rfl, fun {id v} hv => ?_⟩, htimely.stable.toOrdered, rfl⟩
    exact ⟨v, hv, .refl v, fun _ => rfl⟩
  obtain ⟨rounds, drained, hdrain, hdrains, hnone⟩ :=
    exists_drain hunhurried hend hstart hle hopened
  refine ⟨rounds, drained, hdrain, Queue.not_due_of_popBefore? hdrains.ordered ?_⟩
  unfold drainOne? at hnone
  split at hnone
  · next hpop => exact hpop
  · cases hnone

/-- A `metro` and a `delay` of three milliseconds, each of which starts the other. -/
theorem draining_ends_circle : ∃ e : Engine CatalogueUnit, 0 < smallBlocks.sampleRate ∧
    Reachable smallBlocks e ∧ e.blockEnd < 9007199254740992 ∧ e.graph.Unhurried e.blockEnd ∧
    ∃ rounds drained, drain e.blockEnd rounds (openBlock #[] e) = .ok ⟨⟩ drained ∧
      ∀ event ∈ drained.queue.events, ¬ event.timestamp < e.blockEnd := by
  have hbuild : (build smallBlocks
      [ .addUnit none (CatalogueUnit.metro ⟨5, none⟩), .addUnit none (.delay ⟨3, none⟩),
        .connect ⟨⟨0⟩, 0, ⟨1⟩, 0⟩, .connect ⟨⟨1⟩, 0, ⟨0⟩, 0⟩, .schedule ⟨0⟩ 0 (.bang 0) ]).any
      (fun e => decide (e.blockEnd < 9007199254740992) && e.queue.events.length == 1 &&
        e.graph.connections.all (·.inlet == 0) && e.graph.allDelays fun wait => decide (1 ≤ wait)) =
      true := by
    decide +kernel
  obtain ⟨e, he, h⟩ := (Option.any_eq_true ..).1 hbuild
  simp only [Bool.and_eq_true, decide_eq_true_eq, List.all_eq_true, beq_iff_eq] at h
  obtain ⟨⟨⟨hend, -⟩, hconnections⟩, hnodes⟩ := h
  have hreach := (roomy_of_build he).reachable
  have hrate : 0 < smallBlocks.sampleRate := by decide +kernel
  have hunhurried : e.graph.Unhurried e.blockEnd := by
    refine Graph.unhurried_of_delays hend fun x wait hdelays => ?_
    refine ⟨of_decide_eq_true (Graph.of_allDelays hnodes hdelays), fun c hc _ => ?_⟩
    rw [hconnections c hc]
    decide
  exact ⟨e, hrate, hreach, hend, hunhurried, draining_ends hrate hreach hend hunhurried #[]⟩

/-! ## A circle without end -/

section Circle

variable {x : UnitId} {t wait stop : Float} {e : Engine CatalogueUnit} {n : Node CatalogueUnit}

/-- That nothing is left to be done but to hand a `delay` that hears itself its own event back. -/
structure Circles (x : UnitId) (t wait : Float) (e : Engine CatalogueUnit) : Prop where
  start : ¬ t < e.blockStart
  loop : e.graph.outgoing x 0 = [⟨x, 0, x, 0⟩]
  node : ∃ n pending, e.graph.node? x = some n ∧ n.owner = none ∧
    n.body = .device (.delay ⟨wait, pending⟩)
  queue : ∃ id, e.queue.events = [⟨id, x, 0, .bang t⟩]

/-- A `delay` that is idle schedules its bang. -/
theorem queue_received_delay (e : Engine CatalogueUnit) (x : UnitId) (t wait : Float) :
    (e.received x (.delay ⟨wait, none⟩) 0 (.bang t)).queue =
      (e.queue.insert x 0 (.bang (t + wait))).2 := by
  have hscript : Device.receive (.delay ⟨wait, none⟩) 0 (.bang t) (e.surroundings x) =
      .schedule 0 (.bang (t + wait)) fun event => .done (CatalogueUnit.delay ⟨wait, some event⟩) :=
    rfl
  rw [received, hscript]
  rfl

/-- A `delay` that hears itself sends its bang on to itself. -/
theorem handBack_circle {pending : Option EventId} (hn : e.graph.node? x = some n)
    (howner : n.owner = none) (hu : n.body = .device (.delay ⟨wait, pending⟩))
    (hloop : e.graph.outgoing x 0 = [⟨x, 0, x, 0⟩]) (id : EventId) (t : Float) :
    handBack ⟨id, x, 0, .bang t⟩ e =
      (e.modifyNode x fun n => { n with body := .device (.delay ⟨wait, none⟩) }).received x
        (.delay ⟨wait, none⟩) 0 (.bang t) := by
  let idle : Node CatalogueUnit := { n with body := .device (.delay ⟨wait, none⟩) }
  let sent : Engine CatalogueUnit :=
    e.modifyNode x fun n => { n with body := .device (.delay ⟨wait, none⟩) }
  have hidle : sent.graph.node? x = some idle := by
    show (e.graph.modifyNode x _).node? x = _
    rw [Graph.node?_modifyNode, if_pos rfl, hn]
    rfl
  have hpass : passOn? sent.graph idle x 0 = none := by
    simp [passOn?, Node.isSubgraph, idle, howner]
  rw [handBack_unit hn hu]
  show runAll 1 [.dispatch ⟨x, .outlet 0, .bang t⟩] sent = _
  rw [runAll_cons, runErrand_leave, show sent.graph.outgoing x 0 = [⟨x, 0, x, 0⟩] from hloop]
  show deliver (maxDepth - 1) x 0 (.bang t) sent = _
  rw [deliver_receive (by decide) hidle hpass rfl rfl]
  rfl

/-- If waiting leads nowhere, the `delay` schedules the same event again. -/
theorem Circles.exists_drainOne? (hwait : t + wait = t) (htime : t < stop) (h : e.Circles x t wait) :
    ∃ e', e.drainOne? stop = some e' ∧ e'.Circles x t wait := by
  obtain ⟨n, pending, hn, howner, hu⟩ := h.node
  obtain ⟨id, hq⟩ := h.queue
  have hpop : e.queue.popBefore? stop = some (⟨id, x, 0, .bang t⟩, ⟨[], e.queue.nextId⟩) := by
    unfold Queue.popBefore?
    rw [hq]
    exact if_pos htime
  have hdue : e.onTime ⟨id, x, 0, .bang t⟩ = ⟨id, x, 0, .bang t⟩ := if_neg h.start
  have hqueued : Queue.due (.bang t) = .bang t := Queue.due_eq (Double.lt_iff.1 htime).1
  let popped : Engine CatalogueUnit :=
    { e with queue := ⟨[], e.queue.nextId⟩ }.record (.fellDue ⟨id, x, 0, .bang t⟩)
  have hback := handBack_circle (e := popped) hn howner hu h.loop id t
  refine ⟨_, by rw [drainOne?, hpop], ?_⟩
  rw [hdue]
  show (handBack ⟨id, x, 0, .bang t⟩ popped).Circles x t wait
  rw [hback]
  refine ⟨h.start, h.loop, ⟨{ n with body := .device (.delay ⟨wait, some ⟨e.queue.nextId⟩⟩) },
    some ⟨e.queue.nextId⟩, ?_, howner, rfl⟩, ⟨e.queue.nextId⟩, ?_⟩
  · show ((e.graph.modifyNode x _).modifyNode x _).node? x = _
    rw [Graph.node?_modifyNode, if_pos rfl, Graph.node?_modifyNode, if_pos rfl, hn]
    rfl
  · rw [queue_received_delay, hwait, Queue.insert, hqueued]
    rfl

/-- Draining never ends then. -/
theorem Circles.drain_ne_ok (hwait : t + wait = t) (htime : t < stop) (h : e.Circles x t wait)
    (rounds : Nat) (drained : Engine CatalogueUnit) : drain stop rounds e ≠ .ok ⟨⟩ drained := by
  induction rounds generalizing e with
  | zero => exact nofun
  | succ rounds ih =>
    obtain ⟨e', hone, h'⟩ := h.exists_drainOne? hwait htime
    rw [drain, run_get_bind]
    simp only [hone]
    exact ih h'

end Circle

/-- A `delay` of no time that hears itself is handed its own event back again and again. -/
theorem draining_never_ends : ∃ e : Engine CatalogueUnit, 0 < smallBlocks.sampleRate ∧
    Reachable smallBlocks e ∧ e.blockStart = 0 ∧
    ∀ rounds drained, drain e.blockEnd rounds (openBlock #[] e) ≠ .ok ⟨⟩ drained := by
  have hbuild : (build smallBlocks
      [ .addUnit none (CatalogueUnit.delay ⟨0, none⟩), .connect ⟨⟨0⟩, 0, ⟨0⟩, 0⟩,
        .schedule ⟨0⟩ 0 (.bang 0) ]).any (fun e =>
      decide (e.blockStart = 0) && decide (0 < e.blockEnd) &&
        decide (e.graph.outgoing ⟨0⟩ 0 = [⟨⟨0⟩, 0, ⟨0⟩, 0⟩]) &&
        (e.graph.node? ⟨0⟩).any (fun n =>
          decide (n.owner = none ∧ n.body.unit? = some (.delay ⟨0, none⟩))) &&
        decide (e.queue.events = [⟨⟨0⟩, ⟨0⟩, 0, .bang 0⟩])) = true := by
    decide +kernel
  obtain ⟨e, he, h⟩ := (Option.any_eq_true ..).1 hbuild
  simp only [Bool.and_eq_true, decide_eq_true_eq, Option.any_eq_true] at h
  obtain ⟨⟨⟨⟨hstart, hend⟩, hloop⟩, n, hn, howner, hu⟩, hqueue⟩ := h
  have hlate : ¬ 0 < (openBlock #[] e).blockStart := by
    show ¬ 0 < e.blockStart
    rw [hstart]
    decide +kernel
  have hcircles : (openBlock #[] e).Circles ⟨0⟩ 0 0 :=
    ⟨hlate, hloop, ⟨n, none, hn, howner, Body.unit?_eq_some.1 hu⟩, ⟨0⟩, hqueue⟩
  have hrate : 0 < smallBlocks.sampleRate := by decide +kernel
  have hwait : (0 : Float) + 0 = 0 := by decide +kernel
  exact ⟨e, hrate, (roomy_of_build he).reachable, hstart, hcircles.drain_ne_ok hwait hend⟩

end Engine
end Patchbay
