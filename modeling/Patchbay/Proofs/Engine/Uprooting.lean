import Patchbay.Proofs.Engine.Attuning
import Patchbay.Proofs.Graph.Uprooting

/-!
# Removing a unit

Whatever commands have led to an engine, no name is kept that nobody uses (`inUse_of_reachable`), and no
number is given to a node twice (`missing_of_added`). A node that may be removed takes with it what lies
within it, and nothing else (`removes_subtree`).
-/

namespace Patchbay

variable {U : Type} [Device U]

/-! ## Names in use -/

namespace Edit

variable {g g' : Graph U}

theorem inUse_insert (hg : g.Registered) (hu : g.names.InUse) {owner : Option UnitId} {body : Body U}
    {id : UnitId} (h : insert owner body g = .ok id g') : g'.names.InUse := by
  obtain ⟨handle, names, hnames, -, rfl⟩ := insert_eq_ok h
  cases hr : body.registration with
  | none =>
    rw [hr] at hnames
    exact hnames.2 ▸ hu
  | some role =>
    rw [hr] at hnames
    exact hu.register hg.names hnames

theorem inUse_add (hg : g.Registered) (hu : g.names.InUse) {owner : Option UnitId} {body : Body U}
    {id : UnitId} (h : add owner body g = .ok id g') : g'.names.InUse := by
  cases owner with
  | none => exact inUse_insert hg hu h
  | some owner =>
    obtain ⟨holder, g₁, -, -, hins, h⟩ := insertInto_eq_ok h
    have hu₁ := inUse_insert hg hu hins
    rcases h with ⟨-, rfl⟩ | ⟨side, grown, -, -, rfl⟩ <;> exact hu₁

theorem inUse_of_edited (hg : g.Registered) (hu : g.names.InUse) {made : Body U → Prop}
    (h : Engine.Edited made g g') : g'.names.InUse := by
  cases h with
  | added _ hadd => exact inUse_add hg hu hadd
  | connected h => exact names_connect h ▸ hu
  | disconnected h => exact names_disconnect h ▸ hu

end Edit
namespace Engine

variable {settings : Settings} {own : UnitId → Prop} {command : Command U} {e e' : Engine U}

omit [Device U] in
theorem inUse_writeNamed {names : Names} (hu : names.InUse) (handle : Option Handle) (outs : Outputs) :
    (writeNamed names handle outs).InUse := by
  unfold writeNamed
  split
  · exact hu.setBus _ _
  · exact hu.setStore _ _
  · exact hu

theorem inUse_of_move (hm : Move own e e') (hu : e.graph.names.InUse) : e'.graph.names.InUse := by
  cases writes_of_move hm with
  | nothing hnames => exact hnames ▸ hu
  | piece _ _ _ hnames => exact hnames ▸ inUse_writeNamed hu _ _

theorem inUse_of_moves (hm : Moves own e e') (hu : e.graph.names.InUse) : e'.graph.names.InUse :=
  hm.keeps (P := fun e => e.graph.names.InUse) (fun _ _ => inUse_of_move) hu

theorem inUse_of_deed (hd : Deed command e e') (hg : e.graph.Sound) (hu : e.graph.names.InUse) :
    e'.graph.names.InUse := by
  cases hd with
  | idle | declined | scheduled | cancelled | sent | unheard | taken => exact hu
  | listened => exact ⟨hu.links, hu.stores⟩
  | edited hedit =>
    have := Edit.inUse_of_edited hg.registered hu hedit
    exact this
  | removed hremove =>
    obtain ⟨-, rfl⟩ := Edit.remove_eq_ok hremove
    exact (Edit.without_foldl_dropNode hg hu _ (List.append_nil _).symm).2
  | planned hplan => exact (graph_compile hplan).2 ▸ hu
  | played _ hp =>
    obtain ⟨drained, plan, planned, ended, hdrain, hplan, hplay, rfl⟩ := process_eq_ok hp
    have hdrained := inUse_of_moves (moves_drain (fun _ => True) hdrain) hu.clearBuses
    have hended := inUse_of_moves (moves_play hplay) ((graph_compile hplan).2 ▸ hdrained)
    exact hended

/-- Whatever commands have led to an engine, nothing is kept under names that nobody uses. -/
theorem inUse_of_reachable (h : Reachable settings e) : e.graph.names.InUse := by
  induction h with
  | start hnew =>
    rw [graph_of_new hnew]
    exact Names.inUse_fresh _
  | step hreach hafter ih =>
    exact inUse_of_deed (deed_of_after hafter) (kept_of_reachable .any hreach).sound ih

/-! ## Numbers -/

theorem size_le_of_leads (h : Leads e e') (hreach : Reachable settings e) :
    e.graph.nodes.size ≤ e'.graph.nodes.size := by
  induction h with
  | refl => exact le_rfl
  | tail hleads hafter ih =>
    obtain ⟨c, hafter⟩ := hafter
    exact ih.trans (rewires_of_after (Leads.reachable hleads hreach) hafter).size

/-- A node that is added comes behind all others. -/
theorem index_of_added {x : UnitId} (h : perform command e = .ok (.added x) e') :
    x.index = e.graph.nodes.size := by
  have hedit : ∀ {owner : Option UnitId} {body : Body U},
      (Reply.added <$> edit (Edit.add owner body) : Change U (Reply U)) e = .ok (.added x) e' →
      x.index = e.graph.nodes.size := by
    intro owner body h
    obtain ⟨id, hedit, heq⟩ := run_map_eq_ok.1 h
    cases heq
    obtain ⟨g, hg, -⟩ := edit_eq_ok.1 hedit
    exact (Edit.node?_add hg).1
  cases command with
  | addUnit | addSubgraph => exact hedit h
  | disconnect c =>
    obtain ⟨_, _, -, h⟩ := run_bind_eq_ok.1 h
    cases h
  | _ =>
    obtain ⟨_, -, h⟩ := run_map_eq_ok.1 h
    cases h

/-- No number is given twice. -/
theorem missing_of_added {x : UnitId} {start : Engine U} (hstart : Reachable settings start)
    (hleads : Leads start e) (h : perform command e = .ok (.added x) e') :
    start.graph.contains x = false := by
  refine Bool.eq_false_iff.2 fun hx => ?_
  have hlt := (Graph.lt_size_of_contains hx).trans_le (size_le_of_leads hleads hstart)
  exact absurd (index_of_added h) hlt.ne

/-! ## Removing -/

/-- Whatever commands have led to an engine, a node that does not stand for a port of a subgraph can be
removed. It goes with everything within it, each node listed once, and with the events of these nodes.
All that is left is as it was, but for the connections of those who are gone and their seats; links and
stores go that nobody uses any more. The next node that is added has a number that no node has had. -/
theorem removes_subtree (h : Reachable settings e) {id : UnitId} {n : Node U}
    (hn : e.graph.node? id = some n) (hfree : ¬ (n.port.isSome ∧ n.owner.any e.graph.contains)) :
    ∃ body e' news, perform (.remove id) e = .ok (.removed body) e' ∧
      (e.graph.descendants id).Nodup ∧ (∀ x, x ∈ e.graph.descendants id ↔ e.graph.Within x id) ∧
      e.graph.Uprooted id (e.graph.descendants id) news e'.graph ∧
      e' = { e with
        graph := e'.graph
        queue := { e.queue with
          events := e.queue.events.filter (·.target ∉ e.graph.descendants id) }
        journal := e.journal ++ (news.map .told).toArray } ∧
      ∀ later c x added, Leads e' later → perform c later = .ok (.added x) added →
        ∀ start, Reachable settings start → Leads start later → start.graph.contains x = false := by
  have hs := (kept_of_reachable .any h).sound
  have hid := Graph.contains_iff.2 ⟨n, hn⟩
  obtain ⟨body, -, hremove⟩ := Edit.remove_eq hn hfree
  generalize (e.graph.contentsFirst id).foldl Edit.dropNode e.graph = g at hremove
  obtain ⟨news, hinforms, huprooted⟩ := Edit.uprooted_of_remove hs (inUse_of_reachable h) hremove
  refine ⟨body, _, news, perform_remove_eq_ok.2 ⟨body, g, hremove, rfl, rfl⟩,
    (Graph.descendants_perm hid).nodup_iff.2 (e.graph.nodup_contentsFirst id),
    fun x => Graph.mem_descendants hs.nested hid, ?_, ?_, ?_⟩
  · exact ⟨huprooted.contains, huprooted.node, huprooted.lost, huprooted.outgoing, huprooted.incoming,
      huprooted.children, huprooted.front, huprooted.names, huprooted.pool, huprooted.plan⟩
  · have htold : g.notices.map Happening.told = (news.map .told).toArray := by
      refine Array.toList_inj.1 ?_
      rw [Array.toList_map, hinforms.notices, pending_of_reachable h]
      rfl
    rw [Queue.foldl_removeUnit, ← htold]
    rfl
  · intro later c x added _ hadded start hstart hleads
    exact missing_of_added hstart hleads hadded

/-- A subgraph is removed that holds another one, in which a unit is connected to itself and another one
is at a link. -/
theorem removes_subtree_nested : let mix := Symbol.ofString "mix"
    ∃ (e e' : Engine CatalogueUnit) (n : Node CatalogueUnit),
    Reachable smallBlocks e ∧ e.graph.node? ⟨0⟩ = some n ∧
    ¬ (n.port.isSome ∧ n.owner.any e.graph.contains) ∧
    e.graph.descendants ⟨0⟩ = [⟨0⟩, ⟨1⟩, ⟨2⟩, ⟨3⟩, ⟨4⟩] ∧
    (∃ body, perform (.remove ⟨0⟩) e = .ok (.removed body) e') ∧
    e'.graph.contains ⟨4⟩ = false ∧ e'.graph.incoming .stream ⟨6⟩ 0 = [⟨⟨5⟩, 0, ⟨6⟩, 0⟩] ∧
    e'.graph.names.seated (.emitter .throw mix) = [⟨7⟩] := by
  intro mix
  obtain ⟨e, hroomy, hbuilt⟩ := exists_roomy smallBlocks
    [ .addSubgraph none, .addUnit (some ⟨0⟩) (CatalogueUnit.port ⟨.outlet, true⟩),
      .addSubgraph (some ⟨0⟩), .addUnit (some ⟨2⟩) (.linkWriter ⟨.throw, mix⟩),
      .addUnit (some ⟨2⟩) (.floatBox ⟨0⟩), .connect ⟨⟨4⟩, 0, ⟨4⟩, 0⟩,
      .addUnit none (.streamOperator { op := .add, right := 0 }),
      .addUnit none (.streamOperator { op := .add, right := 0 }),
      .addUnit none (.linkWriter ⟨.throw, mix⟩),
      .connect ⟨⟨0⟩, 0, ⟨6⟩, 0⟩, .connect ⟨⟨5⟩, 0, ⟨6⟩, 0⟩ ]
    (fun e => decide ((e.graph.node? ⟨0⟩).any (·.port.isNone) = true ∧
      e.graph.descendants ⟨0⟩ = [⟨0⟩, ⟨1⟩, ⟨2⟩, ⟨3⟩, ⟨4⟩] ∧
      e.graph.incoming .stream ⟨6⟩ 0 = [⟨⟨0⟩, 0, ⟨6⟩, 0⟩, ⟨⟨5⟩, 0, ⟨6⟩, 0⟩] ∧
      e.graph.names.seated (.emitter .throw mix) = [⟨3⟩, ⟨7⟩])) (by cbv)
  obtain ⟨hfree, hlist, hstreams, hseated⟩ := of_decide_eq_true hbuilt
  obtain ⟨n, hn, hport⟩ := (Option.any_eq_true ..).1 hfree
  have hnot : ¬ (n.port.isSome ∧ n.owner.any e.graph.contains) := fun h => by simp_all
  obtain ⟨body, e', news, hremove, -, -, huprooted, -⟩ := removes_subtree hroomy.reachable hn hnot
  rw [hlist] at huprooted
  refine ⟨e, e', n, hroomy.reachable, hn, hnot, hlist, ⟨body, hremove⟩, ?_, ?_, ?_⟩
  · exact Bool.eq_false_iff.2 fun h => ((huprooted.contains ⟨4⟩).1 h).2 (by decide)
  · rw [huprooted.incoming, hstreams]
    rfl
  · rw [huprooted.names.seated, hseated]
    rfl

end Engine
end Patchbay
