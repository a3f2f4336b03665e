import Patchbay.Proofs.Graph.Representation

/-!
# Graphs without ports of subgraphs

A message that comes to a port of a subgraph goes on from there at once (`beyond?`). As long as no
message goes round in a circle through ports alone (`Straight`), all the places that it comes to in the
end can be listed (`finalGoals`), and each connection can be replaced by connections to these
(`flattened`).
-/

namespace Patchbay

open Relation

variable {U : Type}

namespace Graph

/-! ## Ports for messages -/

/-- Where the connections of an outlet lead. -/
def goals (g : Graph U) (x : UnitId) (outlet : Nat) : List (UnitId × Nat) :=
  (g.outgoing x outlet).map fun c => (c.dest, c.inlet)

/-- Where the connections lead that leave the unit behind an inlet of a subgraph; one for streams passes
no messages on. -/
def goalsInside (g : Graph U) (x : UnitId) (inlet : Nat) : List (UnitId × Nat) :=
  (g.front x .inlet)[inlet]?.toList.flatMap fun port =>
    if (g.ports port).hasStreams then [] else g.goals port 0

/-- Where messages go on from an inlet that belongs to a port: into a subgraph, or out of it at the
outlet whose place among all outlets is that of the unit among those that stand for them. -/
def beyond? (g : Graph U) (goal : UnitId × Nat) : Option (List (UnitId × Nat)) :=
  if g.isSubgraph goal.1 then some (g.goalsInside goal.1 goal.2)
  else
    (g.owner? goal.1).bind fun owner =>
      if goal.1 ∈ g.front owner .outlet ∧ (g.ports goal.1).hasStreams = false then
        some (g.goals owner ((g.front owner .outlet).idxOf goal.1))
      else none

variable {g : Graph U} {x owner : UnitId} {inlet k : Nat} {goal goal' : UnitId × Nat}
  {goals : List (UnitId × Nat)}

theorem beyond?_of_subgraph (hx : g.isSubgraph goal.1 = true) :
    g.beyond? goal = some (g.goalsInside goal.1 goal.2) := if_pos hx

section Fronted

variable (hf : g.Fronted) (hn : g.Nested)
include hf hn

theorem goalsInside_eq (hx : g.isSubgraph x = true) (inlet : Nat) :
    g.goalsInside x inlet = (g.portUnit? x .inlet inlet).toList.flatMap fun port =>
      if (g.ports port).hasStreams then [] else g.goals port 0 := by
  have hfront : (g.front x .inlet)[inlet]? = g.portUnit? x .inlet inlet := by
    apply Option.ext
    intro port
    rw [(front_eq hf hn hx .inlet).2, hn.portUnit?_eq_some]
  rw [goalsInside, hfront]

theorem beyond?_of_outlet (hx : g.isSubgraph goal.1 = false) (ho : g.owner? goal.1 = some owner)
    (hp : g.port? goal.1 = some (.outlet, k)) (hs : (g.ports goal.1).hasStreams = false) :
    g.beyond? goal = some (g.goals owner k) := by
  have hmem : goal.1 ∈ g.front owner .outlet := (mem_front hn).2 ⟨ho, k, hp⟩
  have hplace : (g.front owner .outlet)[k]? = some goal.1 :=
    ((front_eq hf hn (hn.holder ho) .outlet).2 k goal.1).2 ⟨ho, hp⟩
  have hnodup : (g.front owner .outlet).Nodup := (g.pairwise_front owner .outlet).imp fun hlt he => by
    rw [he] at hlt
    exact lt_irrefl _ hlt
  have hindex : (g.front owner .outlet).idxOf goal.1 = k := by
    obtain ⟨hlt, heq⟩ := List.getElem?_eq_some_iff.1 hplace
    rw [← heq]
    exact hnodup.idxOf_getElem k hlt
  rw [beyond?, if_neg (by simp [hx]), ho, Option.bind_some, if_pos ⟨hmem, hs⟩, hindex]

omit hf in
theorem beyond?_of_unit (hx : g.isSubgraph goal.1 = false)
    (hstay : ∀ owner k, g.owner? goal.1 = some owner → g.port? goal.1 = some (.outlet, k) →
      (g.ports goal.1).hasStreams = true) : g.beyond? goal = none := by
  rw [beyond?, if_neg (by simp [hx])]
  cases ho : g.owner? goal.1 with
  | none => rfl
  | some owner =>
    rw [Option.bind_some, if_neg]
    rintro ⟨hmem, hs⟩
    obtain ⟨-, k, hp⟩ := (mem_front hn).1 hmem
    rw [hstay owner k ho hp] at hs
    cases hs

end Fronted

/-! ## Ways through ports -/

/-- Whether a message goes on from a port to a place at once. -/
def Passes (g : Graph U) (goal goal' : UnitId × Nat) : Prop :=
  ∃ goals, g.beyond? goal = some goals ∧ goal' ∈ goals

/-- Whether no message goes round in a circle through ports alone. -/
def Straight (g : Graph U) : Prop := ∀ goal, ¬ TransGen g.Passes goal goal

theorem mem_goals {outlet : Nat} (h : goal ∈ g.goals x outlet) :
    goal ∈ g.connections.map fun c => (c.dest, c.inlet) := by
  obtain ⟨c, hc, rfl⟩ := List.mem_map.1 h
  exact List.mem_map.2 ⟨c, (List.mem_filter.1 hc).1, rfl⟩

/-- A message only ever comes to places that connections lead to. -/
theorem Passes.mem (h : g.Passes goal goal') :
    goal' ∈ g.connections.map fun c => (c.dest, c.inlet) := by
  obtain ⟨goals, hgoals, hmem⟩ := h
  unfold beyond? at hgoals
  split at hgoals
  · cases hgoals
    obtain ⟨port, -, hmem⟩ := List.mem_flatMap.1 hmem
    split at hmem
    · cases hmem
    · exact mem_goals hmem
  · obtain ⟨owner, -, hgoals⟩ := Option.bind_eq_some_iff.1 hgoals
    split at hgoals
    · cases hgoals
      exact mem_goals hmem
    · cases hgoals

/-- Without circles each way through ports ends, for there are finitely many places. -/
theorem Straight.wellFounded (h : g.Straight) : WellFounded fun goal goal' => g.Passes goal' goal := by
  let Place := { goal // goal ∈ g.connections.map fun c => (c.dest, c.inlet) }
  let After : Place → Place → Prop := fun a b => TransGen g.Passes b.1 a.1
  have : Finite Place := (List.finite_toSet (g.connections.map fun c => (c.dest, c.inlet))).to_subtype
  have : IsTrans Place After := ⟨fun _ _ _ hab hbc => hbc.trans hab⟩
  have : Std.Irrefl After := ⟨fun a => h a.1⟩
  have hplaces : WellFounded After := Finite.wellFounded_of_trans_of_irrefl After
  -- a message may start anywhere, but from its first step on it is at one of these places
  have hacc : ∀ a : Place, Acc (fun goal goal' => g.Passes goal' goal) a.1 := by
    intro a
    induction a using hplaces.induction with
    | _ a ih => exact .intro _ fun b hb => ih ⟨b, hb.mem⟩ (.single hb)
  exact ⟨fun goal => .intro _ fun b hb => hacc ⟨b, hb.mem⟩⟩

/-- Whether each way through ports from a place ends within so many steps. -/
def ends (g : Graph U) : Nat → UnitId × Nat → Bool
  | 0, _ => false
  | steps + 1, goal => ((g.beyond? goal).getD []).all (g.ends steps)

theorem acc_of_ends {steps : Nat} (h : g.ends steps goal = true) :
    Acc (fun goal goal' => g.Passes goal' goal) goal := by
  induction steps generalizing goal with
  | zero => cases h
  | succ steps ih =>
    refine .intro _ fun next hnext => ?_
    obtain ⟨goals, hgoals, hmem⟩ := hnext
    rw [ends, hgoals, Option.getD_some] at h
    exact ih (List.all_eq_true.1 h next hmem)

/-- There are no circles if each way from the end of a connection is known to end. -/
theorem straight_of_ends {steps : Nat}
    (h : (g.connections.all fun c => g.ends steps (c.dest, c.inlet)) = true) : g.Straight := by
  intro goal hcircle
  have hacc : Acc (fun goal goal' => g.Passes goal' goal) goal := by
    obtain ⟨last, -, hlast⟩ := TransGen.tail'_iff.1 hcircle
    obtain ⟨c, hc, rfl⟩ := List.mem_map.1 hlast.mem
    exact acc_of_ends (List.all_eq_true.1 h c hc)
  induction hacc with
  | intro goal _ ih =>
    obtain ⟨next, hnext, hback⟩ := TransGen.head'_iff.1 hcircle
    exact ih next hnext (.tail' hback hnext)

/-- All the places that a message comes to in the end, in order. -/
def finalGoals (g : Graph U) (h : g.Straight) (goal : UnitId × Nat) : List (UnitId × Nat) :=
  match _hb : g.beyond? goal with
  | none => [goal]
  | some goals => goals.attach.flatMap fun next => finalGoals g h next.1
termination_by h.wellFounded.wrap goal
decreasing_by exact ⟨goals, ‹_›, next.2⟩

variable (h : g.Straight)

theorem finalGoals_of_none (hb : g.beyond? goal = none) : g.finalGoals h goal = [goal] := by
  rw [finalGoals]
  split
  · rfl
  · next heq => simp [hb] at heq

theorem finalGoals_of_some (hb : g.beyond? goal = some goals) :
    g.finalGoals h goal = goals.flatMap (g.finalGoals h) := by
  rw [finalGoals]
  split
  · next heq => simp [hb] at heq
  · next heq =>
    cases hb.symm.trans heq
    simp

/-! ## Flattening -/

/-- The connections that take the place of one: if it is for messages, one to each place that these come
to in the end. -/
def straightened (g : Graph U) (h : g.Straight) (c : Connection) : List Connection :=
  if g.kindOf c = .message then
    (g.finalGoals h (c.dest, c.inlet)).map fun goal => { c with dest := goal.1, inlet := goal.2 }
  else [c]

/-- The graph in which messages are connected past all ports. -/
def flattened (g : Graph U) (h : g.Straight) : Graph U :=
  { g with connections := g.connections.flatMap (g.straightened h), plan := none }

variable {outlet : Nat}

theorem outgoing_flattened (x : UnitId) (outlet : Nat) :
    (g.flattened h).outgoing x outlet = (g.outgoing x outlet).flatMap (g.straightened h) := by
  -- a connection is replaced by such as leave the same outlet
  have hfilter : ∀ c : Connection, (g.straightened h c).filter
      (fun c => c.source == x && c.outlet == outlet) =
      if (c.source == x && c.outlet == outlet) = true then g.straightened h c else [] := by
    intro c
    have hsame : ∀ c' ∈ g.straightened h c, c'.source = c.source ∧ c'.outlet = c.outlet := by
      intro c' hc'
      unfold straightened at hc'
      split at hc'
      · obtain ⟨goal, -, rfl⟩ := List.mem_map.1 hc'
        exact ⟨rfl, rfl⟩
      · rw [List.mem_singleton.1 hc']
        exact ⟨rfl, rfl⟩
    split
    · next hc =>
      refine List.filter_eq_self.2 fun c' hc' => ?_
      rw [(hsame c' hc').1, (hsame c' hc').2]
      exact hc
    · next hc =>
      refine List.filter_eq_nil_iff.2 fun c' hc' => ?_
      rw [(hsame c' hc').1, (hsame c' hc').2]
      exact hc
  show (g.connections.flatMap (g.straightened h)).filter _ = (g.connections.filter _).flatMap _
  induction g.connections with
  | nil => rfl
  | cons c connections ih =>
    rw [List.flatMap_cons, List.filter_append, ih, hfilter, List.filter_cons]
    split <;> simp

theorem kindOf_of_mem_outgoing {c : Connection} (hc : c ∈ g.outgoing x outlet) :
    g.kindOf c = .stream ↔ outlet < (g.ports x).streamOutlets := by
  obtain ⟨-, rfl, rfl⟩ := mem_outgoing.1 hc
  exact kindOf_eq_stream

/-- A message that leaves an outlet for messages goes past all ports. -/
theorem goals_flattened_of_message (hk : (g.ports x).streamOutlets ≤ outlet) :
    (g.flattened h).goals x outlet = (g.goals x outlet).flatMap (g.finalGoals h) := by
  rw [Graph.goals, Graph.goals, outgoing_flattened, List.map_flatMap, List.flatMap_map]
  refine List.flatMap_congr fun c hc => ?_
  have hmessage : g.kindOf c = .message := by
    cases hkind : g.kindOf c with
    | message => rfl
    | stream => exact absurd ((kindOf_of_mem_outgoing hc).1 hkind) (Nat.not_lt.2 hk)
  rw [straightened, if_pos hmessage, List.map_map]
  exact List.map_id _

/-- Streams go the way that they went. -/
theorem goals_flattened_of_stream (hk : outlet < (g.ports x).streamOutlets) :
    (g.flattened h).goals x outlet = g.goals x outlet := by
  have hkept : (g.outgoing x outlet).flatMap (g.straightened h) = g.outgoing x outlet := by
    refine (List.flatMap_congr fun c hc => ?_).trans (List.flatMap_singleton' _)
    rw [straightened, (kindOf_of_mem_outgoing hc).2 hk, if_neg (by decide)]
  rw [Graph.goals, outgoing_flattened, hkept]
  rfl

end Graph
end Patchbay
