import Patchbay.Proofs.Engine.Rewiring
import Patchbay.Proofs.Engine.Topology

/-!
# Subgraphs are transparent to messages

An engine and the one in which messages are connected past all ports of subgraphs do the same things
with events, unit by unit and in the same order (`handBack_transparent`, `drains_transparent`). Cascades
in the one follow those in the other (`Runs.follows`): an errand that leads to a port is followed by the
errands that lead to the places beyond it (`Straightens`), and what the ports themselves receive is of no
account.
-/

namespace Patchbay

open Relation

variable {U : Type}

/-- Whether the unit at a node stands for the side of the port that the node is. -/
def Node.standsForSide (n : Node CatalogueUnit) : Bool :=
  n.port.all fun p => decide (n.body.side = some p.1)

namespace Graph

/-- Whether all units behind inlets of subgraphs are those of the catalogue. -/
def InletsHosted (g : Graph U) (f : CatalogueUnit → U) : Prop :=
  ∀ {x k}, g.port? x = some (.inlet, k) → ∃ stream, g.Hosts f x (.port ⟨.inlet, stream⟩)

theorem inletsHosted_of_all {g : Graph CatalogueUnit}
    (h : (g.nodes.all fun n => n.all Node.isGenuine) = true)
    (hside : (g.nodes.all fun n => n.all Node.standsForSide) = true) : g.InletsHosted id := by
  intro x k hx
  obtain ⟨n, hn, hp⟩ := Option.bind_eq_some_iff.1 hx
  have hmem : some n ∈ g.nodes := by
    rw [node?, Option.join_eq_some_iff] at hn
    exact Array.mem_of_getElem? hn
  have hstands : n.standsForSide = true := Array.all_eq_true'.1 hside _ hmem
  rw [Node.standsForSide, hp, Option.all_some, decide_eq_true_eq] at hstands
  cases hb : n.body with
  | subgraph =>
    rw [hb] at hstands
    cases hstands
  | device c =>
    rw [hb] at hstands
    have hhosts := hosts_of_all h hn hb
    cases c with
    | port p =>
      obtain ⟨side, stream⟩ := p
      cases hstands
      exact ⟨stream, hhosts⟩
    | _ => cases hstands

/-- Whether something that happens is more than that a message comes to a port of a subgraph. -/
def shows (g : Graph U) : Happening → Bool
  | .received x _ _ | .deferred x _ _ => (g.port? x).isNone
  | _ => true

/-- What can be seen of a cascade if one does not look at ports. -/
def seen (g : Graph U) (trace : Engine.Trace) : List Happening := (trace.map Prod.snd).filter g.shows

theorem seen_append (g : Graph U) (trace trace' : Engine.Trace) :
    g.seen (trace ++ trace') = g.seen trace ++ g.seen trace' := by
  rw [seen, List.map_append, List.filter_append]
  rfl

theorem seen_append_congr {g : Graph U} {inner inner' trace trace' : Engine.Trace}
    (hin : g.seen inner' = g.seen inner) (h : g.seen trace' = g.seen trace) :
    g.seen (inner' ++ trace') = g.seen (inner ++ trace) := by
  rw [seen_append, seen_append, hin, h]

theorem seen_map (g : Graph U) (depth : Nat) (happenings : List Happening) :
    g.seen (happenings.map (depth, ·)) = happenings.filter g.shows := by
  rw [seen, List.map_map]
  exact congrArg _ (List.map_id _)

/-- How deep something lies makes no difference. -/
theorem seen_cons {g : Graph U} {trace trace' : Engine.Trace} (h : g.seen trace' = g.seen trace)
    (depth depth' : Nat) (happening : Happening) :
    g.seen ((depth', happening) :: trace') = g.seen ((depth, happening) :: trace) := by
  simp only [seen, List.map_cons, List.filter_cons] at h ⊢
  rw [h]

end Graph

namespace Engine

/-! ## Errands past ports -/

/-- Which errands take the place of one if messages are connected past ports. -/
inductive Straightens (g : Graph U) (h : g.Straight) : Errand → List Errand → Prop
  | same (errand : Errand) : Straightens g h errand [errand]
  /-- At a port a message is led on at once. -/
  | beyond {x : UnitId} {inlet : Nat} {message : Message} {goals : List (UnitId × Nat)} :
      g.beyond? (x, inlet) = some goals → Straightens g h (.deliver x inlet message)
        ((goals.flatMap (g.finalGoals h)).map fun goal => .deliver goal.1 goal.2 message)
  /-- The unit behind an inlet need not be asked. -/
  | inside {port : UnitId} {k : Nat} {message : Message} : g.port? port = some (.inlet, k) →
      Straightens g h (.deliver port 0 message)
        (((if (g.ports port).hasStreams then [] else g.goals port 0).flatMap (g.finalGoals h)).map
          fun goal => .deliver goal.1 goal.2 message)
  | leave {source : UnitId} {outlet : Nat} {message : Message} :
      Straightens g h (.dispatch ⟨source, .outlet outlet, message⟩)
        (((g.goals source outlet).flatMap (g.finalGoals h)).map
          fun goal => .deliver goal.1 goal.2 message)

/-- Which errands take the place of some, one after another. -/
inductive StraightensAll (g : Graph U) (h : g.Straight) : List Errand → List Errand → Prop
  | nil : StraightensAll g h [] []
  | cons {errand : Errand} {errands instead errands' : List Errand} :
      Straightens g h errand instead → StraightensAll g h errands errands' →
      StraightensAll g h (errand :: errands) (instead ++ errands')

section Straightens

variable {g : Graph U} {h : g.Straight}

theorem straightensAll_refl (errands : List Errand) : StraightensAll g h errands errands := by
  induction errands with
  | nil => exact .nil
  | cons errand errands ih => exact .cons (.same errand) ih

/-- Deliveries may go to the places that the messages come to in the end. -/
theorem straightensAll_finalGoals (goals : List (UnitId × Nat)) (message : Message) :
    StraightensAll g h (goals.map fun goal => .deliver goal.1 goal.2 message)
      ((goals.flatMap (g.finalGoals h)).map fun goal => .deliver goal.1 goal.2 message) := by
  induction goals with
  | nil => exact .nil
  | cons goal goals ih =>
    rw [List.map_cons, List.flatMap_cons, List.map_append]
    refine .cons ?_ ih
    cases hb : g.beyond? goal with
    | none =>
      rw [g.finalGoals_of_none h hb]
      exact .same _
    | some beyond =>
      rw [g.finalGoals_of_some h hb]
      exact .beyond hb

end Straightens

/-- Whether a message was dropped because it lay too deep. -/
def IsCut (entry : Nat × Happening) : Prop :=
  maxDepth ≤ entry.1 ∧ ∃ target message, entry.2 = cutReport target message

/-- Where nothing is reported, no message was dropped. -/
theorem not_isCut_of_reports [Device U] {event : Event} {e e' : Engine U} {trace : Trace}
    (h : HandsBack event e trace e') (hreports : e'.journal.reports = []) :
    ∀ entry ∈ trace, ¬ IsCut entry := by
  rintro entry hentry ⟨-, target, message, hcut⟩
  have hjournal : entry.2 ∈ e'.journal.toList := by
    rw [h.journal, Array.toList_append, List.mem_append]
    exact .inr (List.mem_map.2 ⟨entry, hentry, rfl⟩)
  have hreport : _ ∈ e'.journal.reports := List.mem_filterMap.2 ⟨_, hjournal, by rw [hcut]; rfl⟩
  rw [hreports] at hreport
  cases hreport

section Following

variable {f : CatalogueUnit → U} {g : Graph U} {h : g.Straight} {e e' : Engine U} {x : UnitId}
  {n : Node U} {inlet : Nat} {message : Message} {instead : List Errand}

/-! ### Where deliveries lead -/

theorem Shadows.goals (hs : Shadows f g (g.flattened h).connections e e') (x : UnitId)
    (outlet : Nat) : e.graph.goals x outlet = g.goals x outlet ∧
      e'.graph.goals x outlet = (g.flattened h).goals x outlet := by
  obtain ⟨journal, rfl⟩ := hs.same
  refine ⟨?_, rfl⟩
  rw [Graph.goals, Graph.goals, Graph.outgoing, Graph.outgoing, hs.works.shape.connections]

/-- Messages that leave an outlet go to the same places in the end. -/
theorem Shadows.leave (hs : Shadows f g (g.flattened h).connections e e') (x : UnitId) (outlet : Nat)
    (message : Message) :
    StraightensAll g h ((e.graph.goals x outlet).map fun goal => .deliver goal.1 goal.2 message)
      ((e'.graph.goals x outlet).map fun goal => .deliver goal.1 goal.2 message) := by
  obtain ⟨hgoals, hgoals'⟩ := hs.goals x outlet
  rw [hgoals, hgoals']
  by_cases hk : outlet < (g.ports x).streamOutlets
  · rw [g.goals_flattened_of_stream h hk]
    exact straightensAll_refl _
  · rw [g.goals_flattened_of_message h (Nat.not_lt.1 hk)]
    exact straightensAll_finalGoals _ message

section Ports

variable (hs : Shadows f g (g.flattened h).connections e e') (hfronted : g.Fronted) (hnested : g.Nested)
  (hn : e.graph.node? x = some n)
include hs hn

include hfronted hnested

/-- What a port passes on goes to the same places in the end, whether the other engine passes it on too
or has no need to. -/
theorem Shadows.pass {goals : List (UnitId × Nat)} (hp : passOn? e.graph n x inlet = some goals)
    (hinstead : Straightens g h (.deliver x inlet message) instead) :
    (∃ goals', passOn? e'.graph n x inlet = some goals' ∧ instead = [.deliver x inlet message] ∧
      StraightensAll g h (goals.map fun goal => .deliver goal.1 goal.2 message)
        (goals'.map fun goal => .deliver goal.1 goal.2 message)) ∨
    StraightensAll g h (goals.map fun goal => .deliver goal.1 goal.2 message) instead := by
  obtain ⟨hsub, howner, hport, hports⟩ := hs.views hn
  have hunit := (hs.portUnit? x .inlet inlet).1
  -- a message goes into a subgraph, or out of one, or is not passed on
  cases meets n with
  | subgraph h₁ =>
    rw [passOn?_of_subgraph e.graph x inlet h₁, Option.some.injEq, hunit] at hp
    subst hp
    cases hinstead with
    | same =>
      refine .inl ⟨_, passOn?_of_subgraph e'.graph x inlet h₁, rfl, ?_⟩
      rw [(hs.portUnit? x .inlet inlet).2]
      exact straightensAll_refl _
    | beyond hb =>
      refine .inr ?_
      have hsub₁ := hsub.trans h₁
      rw [Graph.beyond?_of_subgraph hsub₁, Option.some.injEq,
        Graph.goalsInside_eq hfronted hnested hsub₁] at hb
      subst hb
      cases hunit : g.portUnit? x .inlet inlet with
      | none => exact .nil
      | some port =>
        have hentry := (hnested.portUnit?_eq_some.1 hunit).2
        have hinside : Straightens g h (.deliver port 0 message) _ := .inside hentry
        simpa using StraightensAll.cons hinside .nil
    | inside hentry => exact absurd ((hsub.trans h₁).symm.trans (hnested.portUnit hentry)) (by decide)
  | @outlet owner k h₁ h₂ h₃ h₄ =>
    rw [passOn?_of_outlet e.graph x inlet h₁ h₂ h₃ h₄, Option.some.injEq] at hp
    subst hp
    cases hinstead with
    | same => exact .inl ⟨_, passOn?_of_outlet e'.graph x inlet h₁ h₂ h₃ h₄, rfl, hs.leave owner k message⟩
    | beyond hb =>
      refine .inr ?_
      have hb₁ : g.beyond? (x, inlet) = some (g.goals owner k) :=
        Graph.beyond?_of_outlet hfronted hnested (hsub.trans h₁) (howner.trans h₂) (hport.trans h₃)
          ((congrArg Ports.hasStreams hports).trans h₄)
      rw [hb₁, Option.some.injEq] at hb
      subst hb
      rw [(hs.goals owner k).1]
      exact straightensAll_finalGoals _ message
    | inside hentry =>
      rw [hport, h₃] at hentry
      cases hentry
  | unit h₁ h₂ =>
    rw [passOn?_of_unit e.graph x inlet h₁ h₂] at hp
    cases hp

omit hfronted in
/-- A unit is reached in both engines, unless it is the one behind an inlet. -/
theorem Shadows.unit (hinlets : g.InletsHosted f) {unit : U}
    (hp : passOn? e.graph n x inlet = none) (hu : n.body = .device unit)
    (hinstead : Straightens g h (.deliver x inlet message) instead) :
    (passOn? e'.graph n x inlet = none ∧ instead = [.deliver x inlet message]) ∨
    ∃ k stream, g.port? x = some (.inlet, k) ∧ unit = f (.port ⟨.inlet, stream⟩) ∧
      (g.ports x).hasStreams = stream ∧ instead =
        ((if stream then [] else g.goals x 0).flatMap (g.finalGoals h)).map
          fun goal => .deliver goal.1 goal.2 message := by
  obtain ⟨hsub, howner, hport, hports⟩ := hs.views hn
  cases meets n with
  | subgraph h₁ =>
    rw [passOn?_of_subgraph e.graph x inlet h₁] at hp
    cases hp
  | outlet h₁ h₂ h₃ h₄ =>
    rw [passOn?_of_outlet e.graph x inlet h₁ h₂ h₃ h₄] at hp
    cases hp
  | unit h₁ h₂ =>
    cases hinstead with
    | same => exact .inl ⟨passOn?_of_unit e'.graph x inlet h₁ h₂, rfl⟩
    | beyond hb =>
      have hb₁ : g.beyond? (x, inlet) = none :=
        Graph.beyond?_of_unit hnested (hsub.trans h₁) fun owner k ho hp =>
          (congrArg Ports.hasStreams hports).trans
            (h₂ owner k (howner.symm.trans ho) (hport.symm.trans hp))
      rw [hb₁] at hb
      cases hb
    | @inside _ k _ hentry =>
      obtain ⟨stream, hhosts⟩ := hinlets hentry
      have hstreams : (g.ports x).hasStreams = stream := by
        rw [hhosts.ports]
        cases stream <;> rfl
      obtain ⟨n', hn', hu', -⟩ := hhosts.works (.inr (.inr ⟨_, rfl⟩)) hs.works
      cases hn.symm.trans hn'
      refine .inr ⟨k, stream, hentry, ?_, hstreams, ?_⟩
      · cases hu.symm.trans hu'
        rfl
      · rw [hstreams]

end Ports

/-- To a node that is gone nothing can be delivered. -/
theorem Shadows.gone {connections : List Connection} (hs : Shadows f g connections e e')
    (hnested : g.Nested) (hn : e.graph.node? x = none)
    (hinstead : Straightens g h (.deliver x inlet message) instead) :
    instead = [.deliver x inlet message] := by
  have hgone : g.contains x = false := by
    rw [← hs.works.shape.contains, Graph.contains, hn]
    rfl
  have hnone : ∀ {p : Bool}, (p = true → g.contains x = true) → p = false := fun {p} hp => by
    cases p
    · rfl
    · exact (hp rfl).symm.trans hgone
  cases hinstead with
  | same => rfl
  | beyond hb =>
    have hb₁ : g.beyond? (x, inlet) = none :=
      Graph.beyond?_of_unit hnested (hnone Graph.contains_of_isSubgraph) fun owner k ho _ =>
        absurd ((Graph.contains_of_owner? ho).symm.trans hgone) (by decide)
    rw [hb₁] at hb
    cases hb
  | inside hentry =>
    obtain ⟨owner, ho⟩ := hnested.portOwned hentry
    exact absurd ((Graph.contains_of_owner? ho).symm.trans hgone) (by decide)

/-! ### What the units behind inlets receive -/

theorem modifyNode_eq_self {m : Node U → Node U} (hn : g.node? x = some n) (hm : m n = n) :
    g.modifyNode x m = g := by
  have hnodes : (g.modifyNode x m).nodes = g.nodes := by
    refine Array.ext_getElem? fun i => ?_
    rw [Graph.modifyNode, Array.getElem?_modify]
    split
    · next hi =>
      subst hi
      rw [Graph.node?, Option.join_eq_some_iff] at hn
      rw [hn, Option.map_some, Option.map_some, hm]
    · rfl
  exact congrArg (fun nodes => { g with nodes }) hnodes

variable [Device U]

/-- The unit behind an inlet passes on what it receives, unless it is one for streams, and that is all
that it does. -/
theorem receive_port (hf : Faithful f) (stream : Bool) (here : Surroundings) :
    Device.receive (f (.port ⟨.inlet, stream⟩)) inlet message here =
      if stream then .done (f (.port ⟨.inlet, stream⟩))
      else .send 0 message (.done (f (.port ⟨.inlet, stream⟩))) := by
  rw [hf.receive]
  cases stream <;> rfl

theorem received_port (hf : Faithful f) {stream : Bool} (hn : e.graph.node? x = some n)
    (hu : n.body = .device (f (.port ⟨.inlet, stream⟩))) :
    e.received x (f (.port ⟨.inlet, stream⟩)) inlet message =
      { e with journal := e.journal.push (.received x inlet message) } := by
  have hself : e.graph.modifyNode x (fun n => { n with body := .device (f (.port ⟨.inlet, stream⟩)) }) =
      e.graph := modifyNode_eq_self hn (by rw [← hu])
  rw [received, receive_port hf]
  cases stream <;>
  · show { e with
      graph := e.graph.modifyNode x _, journal := e.journal.push (.received x inlet message) } = _
    rw [hself]

/-- The other engine does not miss what the unit behind an inlet receives: what the unit sends leads to
the places beyond it. -/
theorem Shadows.receivePort (hs : Shadows f g (g.flattened h).connections e e') (hf : Faithful f)
    {stream : Bool} {k : Nat} (hentry : g.port? x = some (.inlet, k))
    (hn : e.graph.node? x = some n) (hu : n.body = .device (f (.port ⟨.inlet, stream⟩)))
    (inlet : Nat) (message : Message) :
    (e.reception x (f (.port ⟨.inlet, stream⟩)) inlet message).filter g.shows = [] ∧
      StraightensAll g h ((e.answers x (f (.port ⟨.inlet, stream⟩)) inlet message).map .dispatch)
        (((if stream then [] else g.goals x 0).flatMap (g.finalGoals h)).map
          fun goal => .deliver goal.1 goal.2 message) ∧
      Shadows f g (g.flattened h).connections
        (e.received x (f (.port ⟨.inlet, stream⟩)) inlet message) e' := by
  refine ⟨?_, ?_, ?_⟩
  · have hhidden : g.shows (.received x inlet message) = false := by
      rw [Graph.shows, hentry]
      rfl
    rw [reception, receive_port hf, List.filter_cons, hhidden]
    cases stream <;> rfl
  · rw [answers, receive_port hf]
    cases stream with
    | false =>
      have hleave : Straightens g h (.dispatch ⟨x, .outlet 0, message⟩) _ := .leave
      simpa [Script.sends] using StraightensAll.cons hleave .nil
    | true => exact .nil
  · rw [received_port hf hn hu]
    obtain ⟨journal, rfl⟩ := hs.same
    exact ⟨hs.works, journal, rfl⟩

/-! ### What follows from errands -/

/-- That what follows from some errands follows in each engine that shadows theirs from the errands that
take their place, if these lie no deeper. -/
def Followed (f : CatalogueUnit → U) (g : Graph U) (h : g.Straight) (depth : Nat)
    (errands : List Errand) (e : Engine U) (trace : Trace) (e₁ : Engine U) : Prop :=
  ∀ ⦃depth' errands' e'⦄, depth' ≤ depth → StraightensAll g h errands errands' →
    Shadows f g (g.flattened h).connections e e' →
    ∃ trace' e₁', Runs depth' errands' e' trace' e₁' ∧ g.seen trace' = g.seen trace ∧
      Shadows f g (g.flattened h).connections e₁ e₁'

section Followed

variable {depth inside depth' inside' : Nat} {first first' rest rest' : List Errand} {e₁ e₂ : Engine U}
  {inner trace : Trace}

/-- Some errands are done after others. -/
theorem Followed.before (hfirst : Followed f g h inside first e inner e₂)
    (hrest : Followed f g h depth rest e₂ trace e₁) (hinside : inside' ≤ inside)
    (hall : StraightensAll g h first first') (hs : Shadows f g (g.flattened h).connections e e')
    (hdepth : depth' ≤ depth) (hall' : StraightensAll g h rest rest') :
    ∃ inner' trace' e₂' e₁', Runs inside' first' e' inner' e₂' ∧ Runs depth' rest' e₂' trace' e₁' ∧
      g.seen (inner' ++ trace') = g.seen (inner ++ trace) ∧
      Shadows f g (g.flattened h).connections e₁ e₁' := by
  obtain ⟨inner', e₂', hin', hseenin, hs₂⟩ := hfirst hinside hall hs
  obtain ⟨trace', e₁', hrun', hseen, hs₁⟩ := hrest hdepth hall' hs₂
  exact ⟨inner', trace', e₂', e₁', hin', hrun', g.seen_append_congr hseenin hseen, hs₁⟩

variable (hf : Faithful f) (hfronted : g.Fronted) (hnested : g.Nested) (hinlets : g.InletsHosted f)

include hnested in
theorem Followed.gone (hd : depth < maxDepth) (hn : e.graph.node? x = none)
    (hrest : Followed f g h depth rest e trace e₁) :
    Followed f g h depth (.deliver x inlet message :: rest) e trace e₁ := by
  intro depth' errands' e' hdepth hall hs
  cases hall with
  | cons hinstead hall =>
    obtain rfl := hs.gone hnested hn hinstead
    obtain ⟨trace', e₁', hrun', hseen, hs₁⟩ := hrest hdepth hall hs
    exact ⟨trace', e₁', .gone (hdepth.trans_lt hd) (hs.node? hn) hrun', hseen, hs₁⟩

include hfronted hnested in
/-- Where the other engine has no need to pass a message on, what follows lies less deep in it. -/
theorem Followed.pass {goals : List (UnitId × Nat)} (hd : depth < maxDepth)
    (hn : e.graph.node? x = some n) (hp : passOn? e.graph n x inlet = some goals)
    (hfirst : Followed f g h (depth + 1) (goals.map fun goal => .deliver goal.1 goal.2 message) e inner e₂)
    (hrest : Followed f g h depth rest e₂ trace e₁) :
    Followed f g h depth (.deliver x inlet message :: rest) e (inner ++ trace) e₁ := by
  intro depth' errands' e' hdepth hall hs
  cases hall with
  | cons hinstead hall =>
    rcases hs.pass hfronted hnested hn hp hinstead with ⟨goals', hp', rfl, hgoals⟩ | hgoals
    · obtain ⟨inner', trace', e₂', e₁', hin', hrun', hseen, hs₁⟩ :=
        hfirst.before hrest (Nat.succ_le_succ hdepth) hgoals hs hdepth hall
      exact ⟨_, e₁', .pass (hdepth.trans_lt hd) (hs.node? hn) hp' hin' hrun', hseen, hs₁⟩
    · obtain ⟨inner', trace', e₂', e₁', hin', hrun', hseen, hs₁⟩ :=
        hfirst.before hrest (Nat.le_succ_of_le hdepth) hgoals hs hdepth hall
      exact ⟨_, e₁', hin'.append hrun', hseen, hs₁⟩

include hf hnested hinlets in
theorem Followed.wait {unit : U} (hd : depth < maxDepth) (hn : e.graph.node? x = some n)
    (hp : passOn? e.graph n x inlet = none) (hu : n.body = .device unit)
    (hc : Device.computes unit = true)
    (hrest : Followed f g h depth rest (e.defer x inlet message) trace e₁) :
    Followed f g h depth (.deliver x inlet message :: rest) e
      ((depth, .deferred x inlet message) :: trace) e₁ := by
  intro depth' errands' e' hdepth hall hs
  cases hall with
  | cons hinstead hall =>
    rcases hs.unit hnested hn hinlets hp hu hinstead with ⟨hp', rfl⟩ | ⟨k, stream, -, rfl, -⟩
    · obtain ⟨trace', e₁', hrun', hseen, hs₁⟩ := hrest hdepth hall (hs.defer hf x inlet message)
      exact ⟨_, e₁', .wait (hdepth.trans_lt hd) (hs.node? hn) hp' hu hc hrun',
        g.seen_cons hseen _ _ _, hs₁⟩
    · exact absurd ((hf.computes _).symm.trans hc) Bool.false_ne_true

include hf hnested hinlets in
/-- What the unit behind an inlet receives is hidden, and what it sends is sent by others. -/
theorem Followed.receive {unit : U} (hd : depth < maxDepth) (hn : e.graph.node? x = some n)
    (hp : passOn? e.graph n x inlet = none) (hu : n.body = .device unit)
    (hc : Device.computes unit = false)
    (hfirst : Followed f g h (depth + 1) ((e.answers x unit inlet message).map .dispatch)
      (e.received x unit inlet message) inner e₂)
    (hrest : Followed f g h depth rest e₂ trace e₁) :
    Followed f g h depth (.deliver x inlet message :: rest) e
      ((e.reception x unit inlet message).map (depth, ·) ++ inner ++ trace) e₁ := by
  intro depth' errands' e' hdepth hall hs
  rw [List.append_assoc]
  cases hall with
  | cons hinstead hall =>
    rcases hs.unit hnested hn hinlets hp hu hinstead with
      ⟨hp', rfl⟩ | ⟨k, stream, hentry, rfl, hstreams, rfl⟩
    · obtain ⟨hanswers, hreception, hs₂⟩ := hs.receive hf hn hu inlet message
      obtain ⟨inner', trace', e₂', e₁', hin', hrun', hseen, hs₁⟩ :=
        hfirst.before hrest (Nat.succ_le_succ hdepth) (straightensAll_refl _) hs₂ hdepth hall
      refine ⟨_, e₁', .receive (hdepth.trans_lt hd) (hs.node? hn) hp' hu hc
        (hanswers ▸ hin') hrun', ?_, hs₁⟩
      rw [hreception, List.append_assoc]
      exact g.seen_append_congr (by rw [g.seen_map, g.seen_map]) hseen
    · obtain ⟨hhidden, hsent, hs₂⟩ := hs.receivePort hf hentry hn hu inlet message
      obtain ⟨inner', trace', e₂', e₁', hin', hrun', hseen, hs₁⟩ :=
        hfirst.before hrest (Nat.le_succ_of_le hdepth) hsent hs₂ hdepth hall
      refine ⟨inner' ++ trace', e₁', hin'.append hrun', ?_, hs₁⟩
      rw [hseen, g.seen_append (List.map _ _), g.seen_map, hhidden, List.nil_append]

theorem Followed.leave {source : UnitId} {outlet : Nat}
    (hfirst : Followed f g h depth
      ((e.graph.outgoing source outlet).map fun c => .deliver c.dest c.inlet message) e inner e₂)
    (hrest : Followed f g h depth rest e₂ trace e₁) :
    Followed f g h depth (.dispatch ⟨source, .outlet outlet, message⟩ :: rest) e (inner ++ trace) e₁ := by
  intro depth' errands' e' hdepth hall hs
  have hout : ∀ g : Graph U, (g.outgoing source outlet).map (fun c => Errand.deliver c.dest c.inlet message) =
      (g.goals source outlet).map fun goal => .deliver goal.1 goal.2 message := fun g => by
    rw [Graph.goals, List.map_map]
    rfl
  rw [hout] at hfirst
  cases hall with
  | cons hinstead hall =>
    cases hinstead with
    | same =>
      obtain ⟨inner', trace', e₂', e₁', hin', hrun', hseen, hs₁⟩ :=
        hfirst.before hrest hdepth (hs.leave source outlet message) hs hdepth hall
      exact ⟨_, e₁', .leave (hout _ ▸ hin') hrun', hseen, hs₁⟩
    | leave =>
      -- the other engine has left the unit behind an inlet out, and is at the places beyond
      rw [(hs.goals source outlet).1] at hfirst
      obtain ⟨inner', trace', e₂', e₁', hin', hrun', hseen, hs₁⟩ :=
        hfirst.before hrest hdepth (straightensAll_finalGoals _ message) hs hdepth hall
      exact ⟨_, e₁', hin'.append hrun', hseen, hs₁⟩

theorem Followed.collect {source : UnitId} {name : Symbol}
    (hx : e.graph.names.isExternal name.text = true)
    (hfirst : Followed f g h depth
      ((e.graph.names.receivers name.text).map fun id => .deliver id 0 message)
      ({ e with external := e.external.push (name, message) }.record (.collected name message)) inner e₂)
    (hrest : Followed f g h depth rest e₂ trace e₁) :
    Followed f g h depth (.dispatch ⟨source, .named name, message⟩ :: rest) e
      ((depth, .collected name message) :: inner ++ trace) e₁ := by
  intro depth' errands' e' hdepth hall hs
  rw [← hs.names] at hx hfirst
  cases hall with
  | cons hinstead hall =>
    cases hinstead with
    | same =>
      obtain ⟨inner', trace', e₂', e₁', hin', hrun', hseen, hs₁⟩ := hfirst.before hrest hdepth
        (straightensAll_refl _) (hs.collect name message) hdepth hall
      exact ⟨_, e₁', .collect hx hin' hrun', g.seen_cons hseen _ _ _, hs₁⟩

theorem Followed.unheard {source : UnitId} {name : Symbol}
    (hx : e.graph.names.isExternal name.text = false) (hr : e.graph.names.receivers name.text = [])
    (hrest : Followed f g h depth rest (e.report .warning (noReceiver name.text)) trace e₁) :
    Followed f g h depth (.dispatch ⟨source, .named name, message⟩ :: rest) e
      ((depth, .reported ⟨.warning, reporter, noReceiver name.text⟩) :: trace) e₁ := by
  intro depth' errands' e' hdepth hall hs
  rw [← hs.names] at hx hr
  cases hall with
  | cons hinstead hall =>
    cases hinstead with
    | same =>
      obtain ⟨trace', e₁', hrun', hseen, hs₁⟩ := hrest hdepth hall (hs.record _)
      exact ⟨_, e₁', .unheard hx hr hrun', g.seen_cons hseen _ _ _, hs₁⟩

theorem Followed.call {source : UnitId} {name : Symbol}
    (hx : e.graph.names.isExternal name.text = false) (hr : e.graph.names.receivers name.text ≠ [])
    (hfirst : Followed f g h depth
      ((e.graph.names.receivers name.text).map fun id => .deliver id 0 message) e inner e₂)
    (hrest : Followed f g h depth rest e₂ trace e₁) :
    Followed f g h depth (.dispatch ⟨source, .named name, message⟩ :: rest) e (inner ++ trace) e₁ := by
  intro depth' errands' e' hdepth hall hs
  rw [← hs.names] at hx hr hfirst
  cases hall with
  | cons hinstead hall =>
    cases hinstead with
    | same =>
      obtain ⟨inner', trace', e₂', e₁', hin', hrun', hseen, hs₁⟩ :=
        hfirst.before hrest hdepth (straightensAll_refl _) hs hdepth hall
      exact ⟨_, e₁', .call hx hr hin' hrun', hseen, hs₁⟩

end Followed

variable (hf : Faithful f) (hfronted : g.Fronted) (hnested : g.Nested) (hinlets : g.InletsHosted f)
include hf hfronted hnested hinlets

/-- A cascade that is not cut is followed, past all ports, by the other engine. -/
theorem Runs.follows {depth : Nat} {errands : List Errand} {e₁ : Engine U} {trace : Trace}
    (hrun : Runs depth errands e trace e₁) (hcut : ∀ entry ∈ trace, ¬ IsCut entry) :
    Followed f g h depth errands e trace e₁ := by
  -- the other engine never lies deeper, so nothing is cut there either
  induction hrun with
  | done =>
    intro depth' errands' e' _ hall hs
    cases hall
    exact ⟨[], e', .done, rfl, hs⟩
  | cut hd => exact absurd ⟨hd, _, _, rfl⟩ (hcut _ List.mem_cons_self)
  | gone hd hn _ ih => exact (ih hcut).gone hnested hd hn
  | pass hd hn hp _ _ ihin ih =>
    obtain ⟨hcutin, hcut⟩ := List.forall_mem_append.1 hcut
    exact (ihin hcutin).pass hfronted hnested hd hn hp (ih hcut)
  | wait hd hn hp hu hc _ ih =>
    exact (ih (List.forall_mem_cons.1 hcut).2).wait hf hnested hinlets hd hn hp hu hc
  | receive hd hn hp hu hc _ _ ihin ih =>
    obtain ⟨hcutfirst, hcut⟩ := List.forall_mem_append.1 hcut
    have hcutin := (List.forall_mem_append.1 hcutfirst).2
    exact (ihin hcutin).receive hf hnested hinlets hd hn hp hu hc (ih hcut)
  | leave _ _ ihin ih =>
    obtain ⟨hcutin, hcut⟩ := List.forall_mem_append.1 hcut
    exact (ihin hcutin).leave (ih hcut)
  | collect hx _ _ ihin ih =>
    obtain ⟨hcutin, hcut⟩ := List.forall_mem_append.1 (List.forall_mem_cons.1 hcut).2
    exact (ihin hcutin).collect hx (ih hcut)
  | unheard hx hr _ ih => exact (ih (List.forall_mem_cons.1 hcut).2).unheard hx hr
  | call hx hr _ _ ihin ih =>
    obtain ⟨hcutin, hcut⟩ := List.forall_mem_append.1 hcut
    exact (ihin hcutin).call hx hr (ih hcut)

/-- What follows from an event is followed, past all ports, by the other engine. -/
theorem HandsBack.follows {event : Event} {e₁ : Engine U} {trace : Trace}
    (hback : HandsBack event e trace e₁) (hcut : ∀ entry ∈ trace, ¬ IsCut entry)
    (hs : Shadows f g (g.flattened h).connections e e') :
    ∃ trace' e₁', HandsBack event e' trace' e₁' ∧ g.seen trace' = g.seen trace ∧
      Shadows f g (g.flattened h).connections e₁ e₁' := by
  cases hback with
  | gone hn => exact ⟨[], e', .gone (hs.node? hn), rfl, hs⟩
  | subgraph hn hu hrun =>
    obtain ⟨trace', e₁', hrun', hseen, hs₁⟩ :=
      hrun.follows hf hfronted hnested hinlets hcut le_rfl (straightensAll_refl _) hs
    exact ⟨trace', e₁', .subgraph (hs.node? hn) hu hrun', hseen, hs₁⟩
  | @unit n unit _ _ hn hu hrun =>
    have hsame : e'.dueScript event unit = e.dueScript event unit ∧ e'.queue = e.queue := by
      obtain ⟨journal, rfl⟩ := hs.same
      exact ⟨rfl, rfl⟩
    have hends : (e.dueScript event unit).Ends (Stays f unit) :=
      (law_stays hf).emit unit event.outlet event.message (e.surroundings event.target)
    have hreact := hs.react hf hn hu hends
    obtain ⟨trace', e₁', hrun', hseen, hs₁⟩ := hrun.follows hf hfronted hnested hinlets
      (List.forall_mem_append.1 hcut).2 le_rfl (straightensAll_refl _) hreact
    rw [← hsame.1, ← hsame.2] at hrun'
    refine ⟨_, e₁', .unit (hs.node? hn) hu hrun', ?_, hs₁⟩
    rw [hsame.1, hsame.2]
    exact Graph.seen_append_congr rfl hseen

/-- The other engine hands the next event on, too. -/
theorem Shadows.drainOne? {stop : Float} {e₁ : Engine U}
    (hs : Shadows f g (g.flattened h).connections e e')
    (hseen : e'.journal.toList.filter g.shows = e.journal.toList.filter g.shows)
    (hone : e.drainOne? stop = some e₁)
    (hcut : ∀ target message, cutReport target message ∉ e₁.journal.toList) :
    ∃ e₁', e'.drainOne? stop = some e₁' ∧ Shadows f g (g.flattened h).connections e₁ e₁' ∧
      e₁'.journal.toList.filter g.shows = e₁.journal.toList.filter g.shows := by
  obtain ⟨event, queue, trace, hpop, hback, hjournal⟩ := drainOne?_eq_some hone
  obtain ⟨journal, rfl⟩ := hs.same
  have huncut : ∀ entry ∈ trace, ¬ IsCut entry := by
    rintro entry hentry ⟨-, target, message, hreport⟩
    refine hcut target message ?_
    rw [hjournal, ← hreport]
    exact List.mem_append_right _ (List.mem_cons_of_mem _ (List.mem_map_of_mem hentry))
  obtain ⟨trace', e₁', hback', htrace, hs₁⟩ := hback.follows hf hfronted hnested hinlets huncut
    ⟨hs.works, journal.push (.fellDue (e.onTime event)), rfl⟩
  -- the queues are the same, so the same event is next
  have hone' : (e.withConnections (g.flattened h).connections journal).drainOne? stop = some e₁' := by
    rw [hback'.eq]
    unfold drainOne?
    rw [show (e.withConnections (g.flattened h).connections journal).queue.popBefore? stop =
      some (event, queue) from hpop]
    rfl
  refine ⟨e₁', hone', hs₁, ?_⟩
  rw [Graph.seen, Graph.seen] at htrace
  have hjournal' : e₁'.journal.toList =
      journal.toList ++ .fellDue (e.onTime event) :: trace'.map Prod.snd := by
    rw [hback'.journal, Array.toList_append]
    show (journal.push (.fellDue (e.onTime event))).toList ++ trace'.map Prod.snd = _
    rw [Array.toList_push, List.append_assoc, List.singleton_append]
  rw [hjournal', hjournal, List.filter_append, List.filter_append, List.filter_cons, List.filter_cons,
    htrace]
  exact congrArg (· ++ _) hseen

/-- Events fall due alike, one after another. -/
theorem Shadows.drains {stop : Float} {e₁ : Engine U}
    (hs : Shadows f g (g.flattened h).connections e e')
    (hseen : e'.journal.toList.filter g.shows = e.journal.toList.filter g.shows)
    (hdrain : ReflTransGen (fun e e' => e.drainOne? stop = some e') e e₁)
    (hcut : ∀ target message, cutReport target message ∉ e₁.journal.toList) :
    ∃ e₁', ReflTransGen (fun e e' => e.drainOne? stop = some e') e' e₁' ∧
      Shadows f g (g.flattened h).connections e₁ e₁' ∧
      e₁'.journal.toList.filter g.shows = e₁.journal.toList.filter g.shows := by
  induction hdrain with
  | refl => exact ⟨e', .refl, hs, hseen⟩
  | tail _ hone ih =>
    obtain ⟨_, _, _, _, _, hjournal⟩ := drainOne?_eq_some hone
    have huncut : ∀ target message, cutReport target message ∉ _ := fun target message hmem =>
      hcut target message (hjournal ▸ List.mem_append_left _ hmem)
    obtain ⟨m', hdrain', hs', hseen'⟩ := ih huncut
    obtain ⟨e₁', hone', hs₁, hseen₁⟩ :=
      hs'.drainOne? hf hfronted hnested hinlets hseen' hone hcut
    exact ⟨e₁', hdrain'.tail hone', hs₁, hseen₁⟩

end Following

/-! ## Flattened engines -/

/-- The engine in which messages are connected past all ports. -/
def flattened (e : Engine U) (h : e.graph.Straight) : Engine U :=
  { e with graph := e.graph.flattened h }

/-- At each moment of a run, an engine shadows itself with messages connected past all ports. -/
theorem shadows_flattened [Device U] {f : CatalogueUnit → U} (hf : Faithful f) (e : Engine U)
    (h : e.graph.Straight) :
    Shadows f e.graph (e.graph.flattened h).connections e (e.flattened h) :=
  ⟨.refl (law_stays hf).refl (fun _ => rfl) _, e.journal, rfl⟩

theorem nested_fronted_of_underway [Device U] {settings : Settings} {e : Engine U}
    (hrun : Underway settings e) : e.graph.Nested ∧ e.graph.Fronted := by
  obtain ⟨e₀, hreach, hshape⟩ := exists_sameShape_of_underway hrun
  exact ⟨hshape.nested (kept_of_reachable .any hreach).sound.nested,
    (hshape.fronted (fronted_of_reachable hreach)).1⟩

/-- While a block is drained, events have the same effects if messages are connected past all ports of
subgraphs, as long as no message is dropped. -/
theorem drains_transparent [Device U] {f : CatalogueUnit → U} (hf : Faithful f) {settings : Settings}
    {e e₁ : Engine U} (hrun : Underway settings e) (hinlets : e.graph.InletsHosted f)
    (h : e.graph.Straight) {stop : Float}
    (hdrain : ReflTransGen (fun e e' => e.drainOne? stop = some e') e e₁)
    (hcut : ∀ target message, cutReport target message ∉ e₁.journal.toList) :
    ∃ e₁', ReflTransGen (fun e e' => e.drainOne? stop = some e') (e.flattened h) e₁' ∧
      e₁'.journal.toList.filter e.graph.shows = e₁.journal.toList.filter e.graph.shows ∧
      ∃ journal, e₁' = e₁.withConnections (e.graph.flattened h).connections journal := by
  obtain ⟨hnested, hfronted⟩ := nested_fronted_of_underway hrun
  obtain ⟨e₁', hdrain', hs, hseen⟩ :=
    (shadows_flattened hf e h).drains hf hfronted hnested hinlets rfl hdrain hcut
  exact ⟨e₁', hdrain', hseen, hs.same⟩

/-- An event has the same effects if messages are connected past all ports of subgraphs: the same
messages come to the same inlets in the same order and go to the host, and units become the same. The
units behind inlets are those of the catalogue; all others may be of any kind. The event is handed back
at any moment of a run, also while a block is drained. -/
theorem handBack_transparent [Device U] {f : CatalogueUnit → U} (hf : Faithful f) {settings : Settings}
    {m e : Engine U} (hrun : Underway settings m) (hgraph : e.graph = m.graph)
    (hinlets : e.graph.InletsHosted f) (h : e.graph.Straight) (event : Event) :
    ∃ trace trace', HandsBack event e trace (handBack event e) ∧
      HandsBack event (e.flattened h) trace' (handBack event (e.flattened h)) ∧
      ((∀ entry ∈ trace, ¬ IsCut entry) → e.graph.seen trace' = e.graph.seen trace ∧
        (handBack event (e.flattened h)).external = (handBack event e).external ∧
        ∃ journal, handBack event (e.flattened h) =
          (handBack event e).withConnections (e.graph.flattened h).connections journal) := by
  obtain ⟨hnested, hfronted⟩ := hgraph ▸ nested_fronted_of_underway hrun
  obtain ⟨trace, hback⟩ := exists_handsBack event e
  obtain ⟨trace', hback'⟩ := exists_handsBack event (e.flattened h)
  refine ⟨trace, trace', hback, hback', fun hcut => ?_⟩
  obtain ⟨trace₁, e₁, hback₁, hseen, hs₁⟩ :=
    hback.follows hf hfronted hnested hinlets hcut (shadows_flattened hf e h)
  cases hback₁.unique hback'
  obtain rfl := hback₁.eq
  obtain ⟨journal, hsame⟩ := hs₁.same
  refine ⟨hseen, ?_, journal, hsame⟩
  rw [hsame]
  rfl

/-- A message goes into a subgraph, into another inside it, and out of both to the host. -/
theorem handBack_transparent_nested : let event : Event := ⟨⟨0⟩, ⟨0⟩, 0, .bang 0⟩
    ∃ (e : Engine CatalogueUnit) (h : e.graph.Straight), Faithful (id : CatalogueUnit → CatalogueUnit) ∧
      Reachable smallBlocks e ∧ e.graph.InletsHosted id ∧
      (e.graph.flattened h).goals ⟨0⟩ 0 = [(⟨7⟩, 0)] ∧ (handBack event e).external.size = 1 ∧
      ∃ trace trace', HandsBack event e trace (handBack event e) ∧
        HandsBack event (e.flattened h) trace' (handBack event (e.flattened h)) ∧
        (∀ entry ∈ trace, ¬ IsCut entry) ∧ e.graph.seen trace' = e.graph.seen trace ∧
        (handBack event (e.flattened h)).external = (handBack event e).external ∧
        ∃ journal, handBack event (e.flattened h) =
          (handBack event e).withConnections (e.graph.flattened h).connections journal := by
  intro event
  obtain ⟨e, hroomy, hall⟩ := exists_roomy smallBlocks
    [ .addUnit none (CatalogueUnit.messageReceiver ⟨.ofString "in"⟩), .addSubgraph none,
      .addUnit (some ⟨1⟩) (.port ⟨.inlet, false⟩), .addSubgraph (some ⟨1⟩),
      .addUnit (some ⟨3⟩) (.port ⟨.inlet, false⟩), .addUnit (some ⟨3⟩) (.port ⟨.outlet, false⟩),
      .addUnit (some ⟨1⟩) (.port ⟨.outlet, false⟩), .addUnit none (.messageSender ⟨.ofString "out"⟩),
      .connect ⟨⟨0⟩, 0, ⟨1⟩, 0⟩, .connect ⟨⟨2⟩, 0, ⟨3⟩, 0⟩, .connect ⟨⟨4⟩, 0, ⟨5⟩, 0⟩,
      .connect ⟨⟨3⟩, 0, ⟨6⟩, 0⟩, .connect ⟨⟨1⟩, 0, ⟨7⟩, 0⟩, .registerExternal "out" ]
    (fun e => (e.graph.connections.all fun c => e.graph.ends 5 (c.dest, c.inlet)) &&
      (e.graph.nodes.all fun n => n.all Node.isGenuine) &&
      (e.graph.nodes.all fun n => n.all Node.standsForSide) &&
      decide ((e.graph.ports ⟨0⟩).streamOutlets ≤ 0) &&
      decide (e.graph.goals ⟨0⟩ 0 = [(⟨1⟩, 0)]) &&
      decide (e.graph.beyond? (⟨1⟩, 0) = some [(⟨3⟩, 0)]) &&
      decide (e.graph.beyond? (⟨3⟩, 0) = some [(⟨5⟩, 0)]) &&
      decide (e.graph.beyond? (⟨5⟩, 0) = some [(⟨6⟩, 0)]) &&
      decide (e.graph.beyond? (⟨6⟩, 0) = some [(⟨7⟩, 0)]) &&
      decide (e.graph.beyond? (⟨7⟩, 0) = none) &&
      decide ((handBack event e).external.size = 1) && (handBack event e).journal.reports.isEmpty)
    (by cbv)
  simp only [Bool.and_eq_true, decide_eq_true_eq] at hall
  obtain ⟨⟨⟨⟨⟨⟨⟨⟨⟨⟨⟨hends, hgenuine⟩, hside⟩, hmessage⟩, hgoals⟩, h₁⟩, h₃⟩, h₅⟩, h₆⟩, h₇⟩,
    hexternal⟩, hreports⟩ := hall
  have h : e.graph.Straight := Graph.straight_of_ends hends
  have hinlets : e.graph.InletsHosted id := Graph.inletsHosted_of_all hgenuine hside
  obtain ⟨trace, trace', hback, hback', hsame⟩ :=
    handBack_transparent faithful_id (.idle hroomy.reachable) rfl hinlets h event
  have hflat : (e.graph.flattened h).goals ⟨0⟩ 0 = [(⟨7⟩, 0)] := by
    rw [Graph.goals_flattened_of_message h hmessage, hgoals, List.flatMap_singleton,
      Graph.finalGoals_of_some h h₁, List.flatMap_singleton, Graph.finalGoals_of_some h h₃,
      List.flatMap_singleton, Graph.finalGoals_of_some h h₅, List.flatMap_singleton,
      Graph.finalGoals_of_some h h₆, List.flatMap_singleton, Graph.finalGoals_of_none h h₇]
  have hcut := not_isCut_of_reports hback (List.isEmpty_iff.1 hreports)
  obtain ⟨hseen, hext, hend⟩ := hsame hcut
  exact ⟨e, h, faithful_id, hroomy.reachable, hinlets, hflat, hexternal, trace, trace', hback, hback',
    hcut, hseen, hext, hend⟩

end Engine
end Patchbay
