import Patchbay.Proofs.Engine.Notices
import Patchbay.Proofs.Graph.Representation

/-!
# Which connections are made

A connection is made exactly when a graph `Admits` it. It is then the last one of the lists in which it
stands, and all other lists stay as they were (`Joined`).
-/

namespace Patchbay

open Relation

variable {U : Type}

namespace Graph

/-- That a connection of a kind may be made: there are both of its ends, in one graph, and there is no
such connection yet. No streams may lead back from where it arrives to where it leaves. -/
structure Admits (g : Graph U) (c : Connection) (kind : ConnectionKind) : Prop where
  source : g.contains c.source = true
  dest : g.contains c.dest = true
  level : g.owner? c.source = g.owner? c.dest
  outlet : (g.ports c.source).outletKind c.outlet = some kind
  inlet : c.inlet < (g.ports c.dest).inlets
  accepts : kind = .stream → (g.ports c.dest).acceptsStream c.inlet = true
  new : c ∉ g.outgoing c.source c.outlet
  straight : kind = .stream → ¬ ReflTransGen g.Streams c.dest c.source

/-- That a connection of a kind has been made, and nothing else has happened to the lists of
connections. -/
structure Joined (g g' : Graph U) (c : Connection) (kind : ConnectionKind) : Prop where
  outgoing : g'.outgoing c.source c.outlet = g.outgoing c.source c.outlet ++ [c]
  incoming : g'.incoming kind c.dest c.inlet = g.incoming kind c.dest c.inlet ++ [c]
  otherOutgoing : ∀ x o, (x, o) ≠ (c.source, c.outlet) → g'.outgoing x o = g.outgoing x o
  otherIncoming : ∀ kind' x i, (kind', x, i) ≠ (kind, c.dest, c.inlet) →
    g'.incoming kind' x i = g.incoming kind' x i

variable {g g' : Graph U} {c : Connection} {kind : ConnectionKind}

/-- A connection that comes to stand behind the others. -/
theorem joined_of_append (hshape : ∀ x, g'.shape? x = g.shape? x)
    (hconn : g'.connections = g.connections ++ [c]) (hkind : g.kindOf c = kind) :
    g.Joined g' c kind := by
  have hkinds : g'.kindOf = g.kindOf := by
    funext d
    rw [kindOf, kindOf, ports_eq_shape, ports_eq_shape, hshape]
  have hout : ∀ x o, g'.outgoing x o =
      g.outgoing x o ++ [c].filter fun c => c.source == x && c.outlet == o := fun x o => by
    rw [outgoing, outgoing, hconn, List.filter_append]
  have hin : ∀ kind' x i, g'.incoming kind' x i = g.incoming kind' x i ++
      [c].filter fun c => c.dest == x && c.inlet == i && g.kindOf c == kind' := fun kind' x i => by
    rw [incoming_eq_filter, incoming_eq_filter, hconn, List.filter_append, hkinds]
  constructor
  · rw [hout, List.filter_cons_of_pos (by simp), List.filter_nil]
  · rw [hin, List.filter_cons_of_pos (by simp [hkind]), List.filter_nil]
  · intro x o hne
    have hnone : [c].filter (fun c => c.source == x && c.outlet == o) = [] := by
      refine List.filter_eq_nil_iff.2 fun d hd h => hne ?_
      rw [List.mem_singleton.1 hd] at h
      simp only [Bool.and_eq_true, beq_iff_eq] at h
      rw [h.1, h.2]
    rw [hout, hnone, List.append_nil]
  · intro kind' x i hne
    have hnone : [c].filter (fun c => c.dest == x && c.inlet == i && g.kindOf c == kind') = [] := by
      refine List.filter_eq_nil_iff.2 fun d hd h => hne ?_
      rw [List.mem_singleton.1 hd] at h
      simp only [hkind, Bool.and_eq_true, beq_iff_eq] at h
      obtain ⟨⟨rfl, rfl⟩, rfl⟩ := h
      rfl
    rw [hin, hnone, List.append_nil]

end Graph

namespace Edit

variable {g g' : Graph U} {c : Connection} {kind : ConnectionKind}

/-- A connection that is admitted passes the checks. -/
theorem validate_of_admits (h : g.Admits c kind) : validate c g = .ok kind g := by
  obtain ⟨source, hs⟩ := Graph.contains_iff.1 h.source
  obtain ⟨dest, hd⟩ := Graph.contains_iff.1 h.dest
  have howner : source.owner = dest.owner := by simpa [Graph.owner?, hs, hd] using h.level
  have hkind : source.ports.outletKind c.outlet = some kind := by
    simpa [Graph.ports, hs] using h.outlet
  have hin : ¬ dest.ports.inlets ≤ c.inlet := by simpa [Graph.ports, hd] using h.inlet
  have haccepts : ¬ (kind = .stream ∧ !dest.ports.acceptsStream c.inlet) := by
    rintro ⟨hk, hnot⟩
    have := h.accepts hk
    simp_all [Graph.ports]
  rw [validate, run_bind, node_eq_ok.2 ⟨hs, rfl⟩]
  dsimp only
  rw [run_bind, node_eq_ok.2 ⟨hd, rfl⟩]
  simp only [howner, ne_eq, not_true, if_false, hkind, hin, haccepts]
  rfl

variable [Device U]

theorem connect_of_admits (hg : g.Wired) (h : g.Admits c kind) : ∃ g', connect c g = .ok kind g' := by
  have hnew : c ∉ g.connections := fun hc => h.new (Graph.mem_outgoing.2 ⟨hc, rfl, rfl⟩)
  have hstraight : ¬ (kind = .stream ∧ streamsReach g c.dest c.source) := fun ⟨hk, hreach⟩ =>
    h.straight hk ((streamsReach_iff hg h.dest).1 hreach)
  obtain ⟨_, -, hsource⟩ := node_of_contains h.source
  obtain ⟨_, -, hdest⟩ := node_of_contains
    (show Graph.contains { g with connections := g.connections ++ [c], plan := none } c.dest = true
      from h.dest)
  rw [connect, run_bind, validate_of_admits h]
  dsimp only
  rw [run_get_bind, run_bind, hsource]
  simp only [hnew, hstraight, if_false]
  rw [run_modify_bind, run_bind, hdest]
  dsimp only
  split
  · exact ⟨_, rfl⟩
  · exact ⟨_, rfl⟩

/-- What was connected had been admitted, and comes behind the connections that were there. -/
theorem admits_of_connect (hg : g.Wired) (h : connect c g = .ok kind g') :
    g.Admits c kind ∧ g.Joined g' c kind := by
  obtain ⟨hval, hnew, hloop, rfl⟩ := connect_eq_ok h
  obtain ⟨-, hsource, hdest, hlevel, houtlet, hin, hstream⟩ := validate_eq_ok hval
  have hkind : g.kindOf c = kind := by simp [Graph.kindOf, houtlet]
  refine ⟨⟨hsource, hdest, hlevel, houtlet, hin, fun hk => decide_eq_true (hstream hk),
    fun hc => hnew (Graph.mem_outgoing.1 hc).1, fun hk hreach => ?_⟩, ?_⟩
  · exact hloop ⟨hk, (streamsReach_iff hg hdest).2 hreach⟩
  · split
    · have hsame := sameShape_tell { g with connections := g.connections ++ [c], plan := none } c.dest
        c.inlet
      exact Graph.joined_of_append hsame.shape hsame.connections hkind
    · exact Graph.joined_of_append (fun _ => rfl) rfl hkind

/-! ## No rule is broken -/

/-- That an edit is done or refused. -/
abbrev Decides {α : Type} (r : EStateM.Result Failure (Graph U) α) : Prop :=
  Yields (fun f _ => ∃ why, f = .refused why) (fun _ _ => True) r

omit [Device U] in
theorem decides_node (g : Graph U) (x : UnitId) : Decides (node x g) := by
  rw [node, run_get_bind]
  cases g.node? x with
  | none => exact ⟨_, rfl⟩
  | some n => exact ⟨⟩

omit [Device U] in
theorem decides_validate (c : Connection) (g : Graph U) : Decides (validate c g) := by
  unfold validate
  refine (decides_node g c.source).bind fun source g _ =>
    (decides_node g c.dest).bind fun dest g _ => ?_
  by_cases howner : source.owner = dest.owner
  · simp only [howner, ne_eq, not_true, if_false]
    cases source.ports.outletKind c.outlet with
    | none => exact ⟨_, rfl⟩
    | some kind =>
      by_cases hin : dest.ports.inlets ≤ c.inlet
      · simp only [hin, if_true]
        exact ⟨_, rfl⟩
      · simp only [hin, if_false]
        split
        · exact ⟨_, rfl⟩
        · exact ⟨⟩
  · simp only [howner, ne_eq, not_false_eq_true, if_true]
    exact ⟨_, rfl⟩

theorem decides_connect (c : Connection) (g : Graph U) : Decides (connect c g) := by
  unfold connect
  refine (decides_validate c g).bind fun kind g _ => ?_
  rw [run_get_bind]
  refine (decides_node g c.source).bind fun _ g' _ => ?_
  by_cases hnew : c ∈ g.connections
  · simp only [hnew, if_true]
    exact ⟨_, rfl⟩
  · simp only [hnew, if_false]
    by_cases hloop : kind = .stream ∧ streamsReach g c.dest c.source
    · simp only [hloop, and_self, if_true]
      exact ⟨_, rfl⟩
    · simp only [hloop, if_false]
      rw [run_modify_bind]
      refine (decides_node _ c.dest).bind fun _ g' _ => ?_
      split <;> exact ⟨⟩

/-- A connection is made or refused. -/
theorem connect_cases (c : Connection) (g : Graph U) :
    (∃ kind g', connect c g = .ok kind g') ∨ ∃ why, connect c g = .error (.refused why) g := by
  have hdecides := decides_connect c g
  cases hr : connect c g with
  | ok kind g' => exact .inl ⟨kind, g', rfl⟩
  | error f g' =>
    rw [hr] at hdecides
    obtain ⟨why, rfl⟩ := hdecides
    exact .inr ⟨why, by rw [(proper_connect c).refused hr]⟩

end Edit

namespace Engine

variable [Device U] {e e' : Engine U} {c : Connection} {kind : ConnectionKind}

theorem perform_connect_eq_ok : perform (.connect c) e = .ok (.connected kind) e' ↔
    ∃ g, Edit.connect c e.graph = .ok kind g ∧ e' = e.withGraph g := by
  show (Reply.connected <$> edit (Edit.connect c)) e = _ ↔ _
  rw [run_map_eq_ok]
  simp [edit_eq_ok]

/-- Whatever commands have led to an engine, it makes exactly those connections that its graph admits,
and refuses all others. The answer is the kind of the outlet. A connection is appended to the lists of
the outlet that it leaves and of the inlet at which it arrives, and every other list stays as it was.
The search that guards against circles ends and finds a way along streams exactly if there is one. -/
theorem connects_admitted {settings : Settings} (h : Reachable settings e) (c : Connection) :
    (∀ kind, (∃ e', perform (.connect c) e = .ok (.connected kind) e') ↔ e.graph.Admits c kind) ∧
    ((¬ ∃ kind, e.graph.Admits c kind) → ∃ why, perform (.connect c) e = .error (.refused why) e) ∧
    (∀ kind e', perform (.connect c) e = .ok (.connected kind) e' →
      e.graph.Joined e'.graph c kind) ∧
    ∀ start goal, e.graph.contains start = true →
      (Edit.streamsReach e.graph start goal = true ↔ ReflTransGen e.graph.Streams start goal) := by
  have hwired := (kept_of_reachable .any h).sound.wired
  refine ⟨fun kind => ⟨?_, fun hadmits => ?_⟩, fun hnot => ?_, fun kind e' hok => ?_,
    fun start goal hstart => Edit.streamsReach_iff hwired hstart⟩
  · rintro ⟨e', hok⟩
    obtain ⟨g, hg, -⟩ := perform_connect_eq_ok.1 hok
    exact (Edit.admits_of_connect hwired hg).1
  · obtain ⟨g, hg⟩ := Edit.connect_of_admits hwired hadmits
    exact ⟨_, perform_connect_eq_ok.2 ⟨g, hg, rfl⟩⟩
  · rcases Edit.connect_cases c e.graph with ⟨kind, g, hg⟩ | ⟨why, hrefused⟩
    · exact absurd ⟨kind, (Edit.admits_of_connect hwired hg).1⟩ hnot
    · obtain ⟨e', he'⟩ : ∃ e', perform (.connect c) e = .error (.refused why) e' := by
        refine ⟨e.withGraph e.graph, ?_⟩
        show EStateM.map _ (edit (Edit.connect c)) e = _
        rw [EStateM.map, edit, hrefused]
      have hsame := traceless_perform _ (pending_of_reachable h) _ _ he'
      exact ⟨why, hsame ▸ he'⟩
  · obtain ⟨g, hg, rfl⟩ := perform_connect_eq_ok.1 hok
    obtain ⟨-, hjoined⟩ := Edit.admits_of_connect hwired hg
    exact ⟨hjoined.outgoing, hjoined.incoming, hjoined.otherOutgoing, hjoined.otherIncoming⟩

/-- A chain of streams that must not be closed to a circle, and messages that may run in one. -/
theorem connects_admitted_chain : ∃ e : Engine CatalogueUnit, Reachable smallBlocks e ∧
    (∃ e', perform (.connect ⟨⟨0⟩, 0, ⟨1⟩, 1⟩) e = .ok (.connected .stream) e' ∧
      e'.graph.incoming .stream ⟨1⟩ 1 = [⟨⟨2⟩, 0, ⟨1⟩, 1⟩, ⟨⟨0⟩, 0, ⟨1⟩, 1⟩]) ∧
    e.graph.Admits ⟨⟨3⟩, 0, ⟨3⟩, 0⟩ .message ∧
    ReflTransGen e.graph.Streams ⟨0⟩ ⟨1⟩ ∧ ¬ e.graph.Admits ⟨⟨1⟩, 0, ⟨0⟩, 0⟩ .stream := by
  obtain ⟨e, hroomy, hchain⟩ := exists_roomy smallBlocks
    [ .addUnit none (CatalogueUnit.streamOperator { op := .add, right := 0 }),
      .addUnit none (.streamOperator { op := .add, right := 0 }), .connect ⟨⟨0⟩, 0, ⟨1⟩, 0⟩,
      .addUnit none (.streamOperator { op := .add, right := 0 }), .connect ⟨⟨2⟩, 0, ⟨1⟩, 1⟩,
      .addUnit none (.floatBox ⟨0⟩) ]
    (fun e => decide (e.graph.contains ⟨0⟩ = true ∧ Edit.streamsReach e.graph ⟨0⟩ ⟨1⟩ = true ∧
      e.graph.incoming .stream ⟨1⟩ 1 = [⟨⟨2⟩, 0, ⟨1⟩, 1⟩] ∧
      e.refusal? (.connect ⟨⟨0⟩, 0, ⟨1⟩, 1⟩) = none ∧
      (e.graph.ports ⟨0⟩).outletKind 0 = some .stream ∧
      e.refusal? (.connect ⟨⟨3⟩, 0, ⟨3⟩, 0⟩) = none ∧
      (e.graph.ports ⟨3⟩).outletKind 0 = some .message)) (by cbv)
  obtain ⟨hstart, hway, hlist, hstream, hstreams, hmessage, hmessages⟩ := of_decide_eq_true hchain
  have hadmits : ∀ {c kind}, e.refusal? (.connect c) = none →
      (e.graph.ports c.source).outletKind c.outlet = some kind → e.graph.Admits c kind := by
    intro c kind hnone hkind
    obtain ⟨-, hrefused, -⟩ := connects_admitted hroomy.reachable c
    by_contra hnot
    have hnone' : ¬ ∃ kind, e.graph.Admits c kind := by
      rintro ⟨other, h⟩
      exact hnot (Option.some.inj (h.outlet.symm.trans hkind) ▸ h)
    obtain ⟨why, hwhy⟩ := hrefused hnone'
    simp [refusal?_eq_some.2 ⟨e, hwhy⟩] at hnone
  obtain ⟨haccepts, -, hjoined, hsearch⟩ := connects_admitted hroomy.reachable ⟨⟨0⟩, 0, ⟨1⟩, 1⟩
  obtain ⟨e', he'⟩ := (haccepts .stream).2 (hadmits hstream hstreams)
  have hbetween := (hsearch _ _ hstart).1 hway
  exact ⟨e, hroomy.reachable, ⟨e', he', by rw [(hjoined _ _ he').incoming, hlist]; rfl⟩,
    hadmits hmessage hmessages, hbetween, fun h => h.straight rfl hbetween⟩

end Engine
end Patchbay
