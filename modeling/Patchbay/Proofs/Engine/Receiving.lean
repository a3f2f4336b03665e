import Patchbay.Proofs.Catalogue.Steady
import Patchbay.Proofs.Engine.Arrivals

/-!
# What units receive over a run

A plan has one step for each unit that computes, so each block comes to the same for such a unit: some
messages arrive, its step receives them with those that have waited since the block before, and the
messages that arrive later wait for the next block (`splits_of_process`). What holds of all units
between two steps (`Attended`) is kept by every step and every command, so nothing is lost and nothing
is received twice, however long the run (`splitting_loses_nothing`).
-/

namespace Patchbay

variable {U : Type} [Device U]

namespace Engine

variable {made : Body U → Prop} {command : Command U} {e e' : Engine U} {id : UnitId}
  {plan : Plan}

/-! ## Steps of a plan -/

/-- The step of a unit that computes. -/
theorem splits_of_runStep (hl : Law (ComputesAlike (U := U)))
    (h : runStep plan (.unit id) e = .ok ⟨⟩ e') (hc : e.graph.Computes id) :
    e'.graph.Computes id ∧ e'.waiting id = [] ∧ ∃ seg, e'.history id = e.history id ++ seg ∧
      Splits id e.settings.blockSize (fun t => e.settings.sampleOffset t e.blockStart)
        (e.waiting id) seg := by
  refine ⟨(works_of_moves hl (moves_runStep h)).graph.computes_iff.2 hc, ?_⟩
  obtain ⟨outs, e₁, hblock, h⟩ := run_bind_eq_ok.1 h
  cases h
  rcases computeBlock_eq_ok hblock with ⟨hn, -⟩ | ⟨n, p, p', e₂, pool, pool', hn, hp, hs, rfl⟩
  · obtain ⟨n, hn', -⟩ := hc
    rw [hn] at hn'
    cases hn'
  · have hsplits := splits_of_computeSamples (e := e.withPool pool) hl hn hc hp hs
    exact hsplits

/-- Whatever is in a step, all nodes are in order after it if they were before. -/
theorem paced_of_runStep {s : Step} (h : runStep plan s e = .ok ⟨⟩ e') (hp : e.Paced id) :
    e'.Paced id := by
  by_cases hs : s = .unit id
  · subst hs
    obtain ⟨outs, e₁, hblock, h⟩ := run_bind_eq_ok.1 h
    cases h
    rcases computeBlock_eq_ok hblock with ⟨-, rfl⟩ | ⟨n, p, p', e₂, pool, pool', -, -, hs, rfl⟩
    · exact hp
    · have hpaced := paced_of_computeSamples (e := e.withPool pool) hs hp
      exact hpaced
  · exact paced_of_moves (moves_runStep h) hs hp

theorem history_of_runStep_of_missing {s : Step} (h : runStep plan s e = .ok ⟨⟩ e')
    (hmissing : e.graph.contains id = false) : e'.history id = e.history id := by
  by_cases hs : s = .unit id
  · subst hs
    obtain ⟨outs, e₁, hblock, h⟩ := run_bind_eq_ok.1 h
    cases h
    rcases computeBlock_eq_ok hblock with ⟨-, rfl⟩ | ⟨n, -, -, -, -, -, hn, -⟩
    · rfl
    · rw [Graph.contains_iff.2 ⟨n, hn⟩] at hmissing
      cases hmissing
  · exact history_of_missing (moves_runStep h) hs hmissing

/-! ## Between steps -/

/-- What holds of all units between two steps. What waits in a unit is what has arrived since it last
received or computed anything; and what it has received, together with what still waits, is what has
arrived. -/
structure Attended (e : Engine U) : Prop where
  paced : ∀ id, e.Paced id
  recent : ∀ id, e.graph.Computes id → e.waiting id = lineUp [] (e.history id).recent
  once : ∀ id, e.graph.Computes id →
    ((e.history id).receptions ++ e.waiting id).Perm (e.history id).arrivals
  fresh : ∀ id, e.graph.nodes.size ≤ id.index → e.history id = []

theorem recent_append (h seg : History) :
    History.recent (h ++ seg) = seg.foldl History.note h.recent := List.foldl_append

theorem receptions_append (h seg : History) :
    History.receptions (h ++ seg) = h.receptions ++ seg.receptions := List.filterMap_append

theorem arrivals_append (h seg : History) :
    History.arrivals (h ++ seg) = h.arrivals ++ seg.arrivals := List.filterMap_append

section Account

variable {h seg : History} {line ps : List Pending}

/-- Messages that arrive keep the account. -/
theorem account_arrivals (hrecent : line = lineUp [] h.recent)
    (honce : (h.receptions ++ line).Perm h.arrivals) :
    lineUp line ps = lineUp [] (History.recent (h ++ ps.map (arrival id))) ∧
      (History.receptions (h ++ ps.map (arrival id)) ++ lineUp line ps).Perm
        (History.arrivals (h ++ ps.map (arrival id))) := by
  constructor
  · rw [History.recent_append_arrivals, lineUp_append, hrecent]
  · rw [receptions_append, arrivals_append, History.receptions_arrivals, History.arrivals_arrivals,
      List.append_nil]
    refine ((lineUp_perm line ps).append_left _).trans ?_
    rw [← List.append_assoc]
    exact honce.append_right ps

/-- A whole step keeps the account, and settles it. -/
theorem account_step {size : Nat} {offset : Float → Nat} (hs : Splits id size offset line seg)
    (honce : (h.receptions ++ line).Perm h.arrivals) :
    ([] : List Pending) = lineUp [] (History.recent (h ++ seg)) ∧
      (History.receptions (h ++ seg) ++ []).Perm (History.arrivals (h ++ seg)) := by
  constructor
  · rw [recent_append, hs.settled]
    rfl
  · rw [receptions_append, arrivals_append, List.append_nil]
    refine (hs.receives.append_left _).trans ?_
    rw [← List.append_assoc]
    exact honce.append_right _

end Account

theorem attended_of_moves (hl : Law (ComputesAlike (U := U))) (h : Moves (fun _ => False) e e')
    (ha : e.Attended) : e'.Attended := by
  have hshape := (works_of_moves hl h).graph.shape
  have hback : ∀ {id}, e'.graph.Computes id → e.graph.Computes id :=
    fun hc => (works_of_moves hl h).graph.computes_iff.1 hc
  refine ⟨fun id => paced_of_moves h not_false (ha.paced id), fun id hc => ?_, fun id hc => ?_,
    fun id hid => ?_⟩
  · obtain ⟨-, ps, hh, hw⟩ := quiet_of_moves hl h not_false (hback hc)
    rw [hh, hw]
    exact (account_arrivals (ha.recent id (hback hc)) (ha.once id (hback hc))).1
  · obtain ⟨-, ps, hh, hw⟩ := quiet_of_moves hl h not_false (hback hc)
    rw [hh, hw]
    exact (account_arrivals (ha.recent id (hback hc)) (ha.once id (hback hc))).2
  · rw [hshape.size] at hid
    have hmissing : e.graph.contains id = false := by
      refine Bool.eq_false_iff.2 fun hc => ?_
      have := Graph.lt_size_of_contains hc
      omega
    rw [history_of_missing h not_false hmissing, ha.fresh id hid]

theorem attended_of_runStep (hl : Law (ComputesAlike (U := U))) {s : Step}
    (h : runStep plan s e = .ok ⟨⟩ e') (ha : e.Attended) : e'.Attended := by
  have hworks := works_of_moves hl (moves_runStep h)
  have hkeep : ∀ id, e'.graph.Computes id →
      e'.waiting id = lineUp [] (e'.history id).recent ∧
        ((e'.history id).receptions ++ e'.waiting id).Perm (e'.history id).arrivals := by
    intro id hc'
    have hc := hworks.graph.computes_iff.1 hc'
    by_cases hs : s = .unit id
    · subst hs
      obtain ⟨-, hw, seg, hh, hsplits⟩ := splits_of_runStep hl h hc
      rw [hh, hw]
      exact account_step hsplits (ha.once id hc)
    · obtain ⟨-, ps, hh, hw⟩ := quiet_of_moves hl (moves_runStep h) hs hc
      rw [hh, hw]
      exact account_arrivals (ha.recent id hc) (ha.once id hc)
  refine ⟨fun id => paced_of_runStep h (ha.paced id), fun id hc => (hkeep id hc).1,
    fun id hc => (hkeep id hc).2, fun id hid => ?_⟩
  rw [hworks.graph.shape.size] at hid
  have hmissing : e.graph.contains id = false := by
    refine Bool.eq_false_iff.2 fun hc => ?_
    have := Graph.lt_size_of_contains hc
    omega
  rw [history_of_runStep_of_missing h hmissing, ha.fresh id hid]

theorem attended_of_play (hl : Law (ComputesAlike (U := U))) {steps : List Step}
    (h : play plan steps e = .ok ⟨⟩ e') (ha : e.Attended) : e'.Attended := by
  induction steps generalizing e with
  | nil =>
    cases h
    exact ha
  | cons s steps ih =>
    rw [play, List.forM_cons] at h
    obtain ⟨_, e₁, hs, h⟩ := run_bind_eq_ok.1 h
    exact ih h (attended_of_runStep hl hs ha)

/-- An edit leaves what waits in a node and what has happened to it as they are. -/
theorem attended_of_inherits (ha : e.Attended)
    (hg : e.graph.Inherits ComputesAlike e'.graph)
    (hh : ∀ id, e'.history id = e.history id) : e'.Attended := by
  have hold : ∀ {id n'}, e'.graph.node? id = some n' → id.index < e.graph.nodes.size →
      e'.mailbox? id = e.mailbox? id ∧
        (e'.graph.Computes id → e.graph.Computes id) := by
    intro id n' hn' hlt
    obtain ⟨n, hn, hb, hp, hc, -⟩ := hg.old hn' hlt
    refine ⟨by rw [mailbox?, mailbox?, hn, hn', Option.map_some, Option.map_some, hp, hc], ?_⟩
    rintro ⟨m, hm, hcm⟩
    rw [hn'] at hm
    cases hm
    exact ⟨n, hn, hb.computes_eq.symm.trans hcm⟩
  have hnew : ∀ {id n'}, e'.graph.node? id = some n' → e.graph.nodes.size ≤ id.index →
      e'.mailbox? id = some ([], .free) ∧ e'.history id = [] := by
    intro id n' hn' hle
    obtain ⟨hp, hc⟩ := hg.new hn' hle
    exact ⟨by rw [mailbox?, hn', Option.map_some, hp, hc], by rw [hh, ha.fresh id hle]⟩
  have hkeep : ∀ id, e'.graph.Computes id →
      e'.waiting id = lineUp [] (e'.history id).recent ∧
        ((e'.history id).receptions ++ e'.waiting id).Perm (e'.history id).arrivals := by
    intro id hc'
    have hcopy := hc'
    obtain ⟨n', hn', -⟩ := hcopy
    by_cases hlt : id.index < e.graph.nodes.size
    · obtain ⟨hbox, hback⟩ := hold hn' hlt
      rw [waiting_congr hbox, hh]
      exact ⟨ha.recent id (hback hc'), ha.once id (hback hc')⟩
    · obtain ⟨hbox, hnone⟩ := hnew hn' (Nat.not_lt.1 hlt)
      rw [waiting, hbox, hnone]
      exact ⟨rfl, .refl _⟩
  refine ⟨fun id line pace hbox => ?_, fun id hc => (hkeep id hc).1, fun id hc => (hkeep id hc).2,
    fun id hid => (hh id).trans (ha.fresh id (hg.size.trans hid))⟩
  obtain ⟨n', hn', hline⟩ := Option.map_eq_some_iff.1 hbox
  by_cases hlt : id.index < e.graph.nodes.size
  · exact ha.paced id line pace ((hold hn' hlt).1.symm.trans hbox)
  · rw [(hnew hn' (Nat.not_lt.1 hlt)).1] at hbox
    cases hbox
    exact ⟨fun h => (by cases h), fun h => (h rfl).elim⟩

theorem inherits_of_edited {R : U → U → Prop} (hR : Heeds R) {g g' : Graph U} (h : Edited made g g') :
    g.Inherits R g' := by
  cases h with
  | added _ h => exact Edit.inherits_add hR.refl hR.trans h
  | connected h => exact Edit.inherits_connect hR h
  | disconnected h => exact Edit.inherits_disconnect hR h

omit [Device U] in
theorem history_withGraph (e : Engine U) (g : Graph U) (id : UnitId) :
    (e.withGraph g).history id = e.history id := by
  have hjournal : (e.withGraph g).journal = e.journal ++ (g.notices.toList.map .told).toArray := by
    rw [← List.map_toArray, Array.toArray_toList]
    rfl
  refine history_of_journal hjournal fun x hx => ?_
  obtain ⟨notice, -, rfl⟩ := List.mem_map.1 hx
  rfl

omit [Device U] in
/-- To no unit does anything happen when a block begins. -/
theorem history_openBlock (input : Samples) (e : Engine U) (id : UnitId) :
    (openBlock input e).history id = e.history id :=
  (history_record e (.opened e.blockStart)).trans (by simp [Happening.concerns])

section Run

variable (hl : Law (ComputesAlike (U := U)))
include hl

/-- What changes neither nodes nor histories keeps all units attended. -/
theorem attended_of_nodes (ha : e.Attended) (hn : e'.graph.nodes = e.graph.nodes)
    (hh : ∀ id, e'.history id = e.history id) : e'.Attended :=
  attended_of_inherits ha (.of_nodes hl.refl hn) hh

theorem attended_withGraph (ha : e.Attended) {g : Graph U}
    (hg : e.graph.Inherits ComputesAlike g) : (e.withGraph g).Attended :=
  attended_of_inherits ha (hg.trans hl.trans (.of_nodes hl.refl rfl)) (history_withGraph e g)

theorem attended_of_compile (ha : e.Attended) (h : compile e = .ok plan e') : e'.Attended := by
  obtain ⟨g, hg, rfl⟩ := compile_eq_ok.1 h
  refine attended_of_nodes hl ha ?_ fun _ => rfl
  rcases Graph.compile_cases hg with ⟨-, rfl⟩ | ⟨-, d, -, -, rfl⟩ <;> rfl

theorem attended_openBlock (input : Samples) (ha : e.Attended) :
    (openBlock input e).Attended :=
  attended_of_nodes hl ha rfl fun id => history_openBlock input e id

theorem attended_of_deed (h : Deed command e e') (ha : e.Attended) : e'.Attended := by
  cases h with
  | idle => exact ha
  | declined => exact attended_withGraph hl ha (.of_nodes hl.refl rfl)
  | edited hedit => exact attended_withGraph hl ha (inherits_of_edited hl.heeds hedit)
  | removed hremove =>
    have hgraph := attended_withGraph hl ha (Edit.inherits_remove hl.heeds hremove)
    exact attended_of_nodes hl hgraph rfl fun _ => rfl
  | scheduled | cancelled | sent | listened | taken =>
    exact attended_of_nodes hl ha rfl fun _ => rfl
  | unheard name =>
    refine attended_of_nodes hl ha rfl fun id => ?_
    exact (history_record e _).trans (by simp [Happening.concerns])
  | planned hplan => exact attended_of_compile hl ha hplan
  | played _ hp =>
    obtain ⟨drained, plan, planned, ended, hdrain, hplan, hplay, rfl⟩ := process_eq_ok hp
    have hdrained := attended_of_moves hl (moves_drain (fun _ => False) hdrain)
      (attended_openBlock hl _ ha)
    have hended := attended_of_play hl hplay (attended_of_compile hl hdrained hplan)
    exact attended_of_nodes hl hended rfl fun _ => rfl

theorem attended_of_reachable {settings : Settings} (h : Reachable settings e) : e.Attended := by
  refine h.keeps (fun e hn => ?_) fun _ e e' hd => attended_of_deed hl hd
  have hgraph := graph_of_new hn
  have hjournal : e.journal = #[] := by
    obtain ⟨_, -, hn⟩ := bind_eq_ok.1 hn
    obtain ⟨_, -, hn⟩ := bind_eq_ok.1 hn
    obtain ⟨_, -, hn⟩ := bind_eq_ok.1 hn
    cases hn
    rfl
  have hnone : ∀ id, e.graph.node? id = none := fun id => by
    rw [hgraph]
    exact Graph.node?_empty _ id
  refine ⟨fun id line pace hbox => ?_, fun id hc => ?_, fun id hc => ?_, fun id _ => ?_⟩
  · rw [mailbox?, hnone] at hbox
    cases hbox
  · obtain ⟨n, hn, -⟩ := hc
    rw [hnone] at hn
    cases hn
  · obtain ⟨n, hn, -⟩ := hc
    rw [hnone] at hn
    cases hn
  · rw [history, hjournal]
    rfl

end Run

/-! ## Blocks -/

omit [Device U] in
/-- Steps in which no unit has two are those before the unit's and those behind it. -/
theorem exists_split {steps : List Step} (honce : (steps.filterMap Step.unit?).Nodup)
    (hmem : .unit id ∈ steps) :
    ∃ pre post, steps = pre ++ .unit id :: post ∧ .unit id ∉ pre ∧ .unit id ∉ post := by
  obtain ⟨pre, post, rfl⟩ := List.append_of_mem hmem
  rw [List.filterMap_append] at honce
  have hunit : ∀ {l : List Step}, .unit id ∈ l → id ∈ l.filterMap Step.unit? :=
    fun h => List.mem_filterMap.2 ⟨_, h, rfl⟩
  obtain ⟨-, hrest, hdisjoint⟩ := List.nodup_append.1 honce
  refine ⟨pre, post, rfl, fun h => ?_, fun h => ?_⟩
  · exact hdisjoint id (hunit h) id (by simp [Step.unit?]) rfl
  · exact (List.nodup_cons.1 hrest).1 (hunit h)

/-- As long as units keep whether they compute, a plan has one step for each one that does. -/
theorem exists_step {g : Graph U} (hp : g.Planned ComputesAlike plan) (hc : g.Computes id) :
    ∃ pre post, plan.steps.toList = pre ++ .unit id :: post ∧ .unit id ∉ pre ∧ .unit id ∉ post := by
  obtain ⟨g₀, d, hg₀, hd, hplan, hw⟩ := hp
  obtain ⟨hs, hplaced⟩ := Graph.scheduled_fullDraft hg₀ hd
  have hsteps : plan.steps = d.steps := by rw [hplan, Draft.plan]
  rw [hsteps]
  refine exists_split hs.once ?_
  obtain ⟨n, hn, hcn⟩ := hw.computes_iff.1 hc
  rw [hs.units]
  exact ⟨hplaced id (Graph.contains_iff.2 ⟨n, hn⟩), n, hn, hcn⟩

/-- How a block goes for a unit that has a step in it: what is done before the step, the step, and what is
done behind it. -/
structure Visit (e : Engine U) (input : Samples) (id : UnitId) (plan : Plan) (pre post : List Step)
    (drained started reached left ended : Engine U) : Prop where
  drains : drain e.blockEnd roundLimit (openBlock input e) = .ok ⟨⟩ drained
  compiles : compile drained = .ok plan started
  split : plan.steps.toList = pre ++ .unit id :: post
  before : .unit id ∉ pre
  behind : .unit id ∉ post
  reaches : play plan pre started = .ok ⟨⟩ reached
  leaves : runStep plan (.unit id) reached = .ok ⟨⟩ left
  ends : play plan post left = .ok ⟨⟩ ended

/-- In each block a unit that computes has one step. -/
theorem exists_visit (hl : Law (ComputesAlike (U := U))) {settings : Settings}
    (hreach : Reachable settings e) {input samples : Samples} {outLength : Nat}
    (h : process input outLength e = .ok samples e') (hc : e.graph.Computes id) :
    ∃ plan pre post drained started reached left ended,
      Visit e input id plan pre post drained started reached left ended ∧
        e' = { ended with blockStart := e.blockEnd } := by
  obtain ⟨drained, plan, started, ended, hdrain, hcompile, hplay, rfl⟩ := process_eq_ok h
  have hworks := works_opened hl hdrain
  have hkept := (kept_of_reachable hl hreach).works hl (hworks.mono .of_eq)
  obtain ⟨g, hg, rfl⟩ := compile_eq_ok.1 hcompile
  have hcomputes : g.Computes id := by
    obtain ⟨n, hn, hcn⟩ := hworks.computes_iff.2 hc
    have hnodes : g.nodes = drained.graph.nodes := by
      rcases Graph.compile_cases hg with ⟨-, rfl⟩ | ⟨-, d, -, -, rfl⟩ <;> rfl
    exact ⟨n, (by rw [Graph.node?, hnodes]; exact hn), hcn⟩
  obtain ⟨pre, post, hsplit, hpre, hpost⟩ := exists_step (hkept.planned hl hg) hcomputes
  rw [hsplit, play_append] at hplay
  obtain ⟨_, reached, hreaches, hplay⟩ := run_bind_eq_ok.1 hplay
  rw [play, List.forM_cons] at hplay
  obtain ⟨_, left, hleaves, hends⟩ := run_bind_eq_ok.1 hplay
  exact ⟨plan, pre, post, drained, _, reached, left, ended,
    ⟨hdrain, hcompile, hsplit, hpre, hpost, hreaches, hleaves, hends⟩, rfl⟩

section Visits

variable {input : Samples} {pre post : List Step} {drained started reached left ended : Engine U}
variable (h : Visit e input id plan pre post drained started reached left ended)
include h

/-- Before its step nothing happens to a unit but that messages arrive. -/
theorem Visit.arrivals (hl : Law (ComputesAlike (U := U))) (hc : e.graph.Computes id) :
    reached.graph.Computes id ∧ reached.settings = e.settings ∧ reached.blockStart = e.blockStart ∧
      ∃ ps : List Pending, reached.history id = e.history id ++ ps.map (arrival id) ∧
        reached.waiting id = lineUp (e.waiting id) ps := by
  have hdrains := moves_drain (fun _ => False) h.drains
  have hopened : (openBlock input e).graph.Computes id := hc
  obtain ⟨hc₁, ps₁, hh₁, hw₁⟩ := quiet_of_moves hl hdrains not_false hopened
  obtain ⟨g, hg, rfl⟩ := compile_eq_ok.1 h.compiles
  have hnodes : g.nodes = drained.graph.nodes := by
    rcases Graph.compile_cases hg with ⟨-, rfl⟩ | ⟨-, d, -, -, rfl⟩ <;> rfl
  have hnode : g.node? id = drained.graph.node? id := by
    rw [Graph.node?_eq, Graph.node?_eq, hnodes]
  have hc₂ : g.Computes id := by
    obtain ⟨n, hn, hcn⟩ := hc₁
    exact ⟨n, hnode.trans hn, hcn⟩
  have hbox : ({ drained with graph := g } : Engine U).waiting id = drained.waiting id := by
    rw [waiting, waiting, mailbox?, mailbox?, hnode]
  have hreaches := moves_play h.reaches
  obtain ⟨hc₃, ps₂, hh₂, hw₂⟩ := quiet_of_moves hl hreaches h.before hc₂
  have hdraining := works_of_moves hl hdrains
  have hreaching := works_of_moves hl hreaches
  refine ⟨hc₃, hreaching.settings.trans hdraining.settings,
    hreaching.blockStart.trans hdraining.blockStart, ps₁ ++ ps₂, ?_, ?_⟩
  · have hh₂ : reached.history id = drained.history id ++ ps₂.map (arrival id) := hh₂
    rw [hh₂, hh₁, history_openBlock, List.map_append, List.append_assoc]
  · have hwaiting : (openBlock input e).waiting id = e.waiting id := rfl
    rw [hw₂, hbox, hw₁, hwaiting, lineUp_append]

/-- Neither does anything else happen to it behind its step. -/
theorem Visit.arrivals_behind (hl : Law (ComputesAlike (U := U))) (hc : reached.graph.Computes id) :
    ∃ ps : List Pending, ended.history id = left.history id ++ ps.map (arrival id) ∧
      ended.waiting id = lineUp (left.waiting id) ps := by
  have hleft := (works_of_moves hl (moves_runStep h.leaves)).graph.computes_iff.2 hc
  exact (quiet_of_moves hl (moves_play h.ends) h.behind hleft).2

end Visits

/-- In each block a unit that computes has one step. Messages arrive before it, and the step splits
the block at them and at those that were there already; what arrives later waits. -/
theorem splits_of_process (hl : Law (ComputesAlike (U := U))) {settings : Settings}
    (hreach : Reachable settings e) {input samples : Samples} {outLength : Nat}
    (h : process input outLength e = .ok samples e') (hc : e.graph.Computes id) :
    ∃ (earlier later : List Pending) (seg : History),
      e'.history id = e.history id ++ earlier.map (arrival id) ++ seg ++ later.map (arrival id) ∧
      Splits id e.settings.blockSize (fun t => e.settings.sampleOffset t e.blockStart)
        (lineUp [] ((e.history id).recent ++ earlier)) seg ∧
      e'.waiting id = lineUp [] later := by
  obtain ⟨plan, pre, post, drained, started, reached, left, ended, hvisit, rfl⟩ :=
    exists_visit hl hreach h hc
  obtain ⟨hc', hsettings, hstart, earlier, hearlier, hwaiting⟩ := hvisit.arrivals hl hc
  obtain ⟨-, hreceived, seg, hseg, hsplits⟩ := splits_of_runStep hl hvisit.leaves hc'
  obtain ⟨later, hlater, hwaits⟩ := hvisit.arrivals_behind hl hc'
  rw [hsettings, hstart, hwaiting, (attended_of_reachable hl hreach).recent id hc, ← lineUp_append]
    at hsplits
  refine ⟨earlier, later, seg, ?_, hsplits, ?_⟩
  · show ended.history id = _
    rw [hlater, hseg, hearlier]
  · show ended.waiting id = _
    rw [hwaits, hreceived]

/-! ## Runs -/

/-- The engines of a run between its steps: those between two commands, and within a block those
after an event was handed back, after the graph was planned, and after a step of a plan. -/
inductive Underway (settings : Settings) : Engine U → Prop
  | idle {e : Engine U} : Reachable settings e → Underway settings e
  | opened {e : Engine U} (input : Samples) : Reachable settings e →
      Underway settings (openBlock input e)
  | drained {e e' : Engine U} {stop : Float} : Underway settings e →
      e.drainOne? stop = some e' → Underway settings e'
  | planned {e e' : Engine U} {plan : Plan} : Underway settings e → compile e = .ok plan e' →
      Underway settings e'
  | stepped {e e' : Engine U} {plan : Plan} {s : Step} : Underway settings e →
      runStep plan s e = .ok ⟨⟩ e' → Underway settings e'

theorem attended_of_underway (hl : Law (ComputesAlike (U := U))) {settings : Settings}
    (h : Underway settings e) : e.Attended := by
  induction h with
  | idle h => exact attended_of_reachable hl h
  | opened input h => exact attended_openBlock hl input (attended_of_reachable hl h)
  | drained _ h ih => exact attended_of_moves hl (moves_drainOne? _ h) ih
  | planned _ h ih => exact attended_of_compile hl ih h
  | stepped _ h ih => exact attended_of_runStep hl h ih

/-- Splitting loses no message and repeats none. Between steps a node is split in its next step if,
and only if, messages wait in it. In a step all samples of the block are computed once, and all that
waits is received, in order of time, each message at its offset. What a unit has received, together
with what still waits, is what has arrived; and in a block it receives what has arrived since its
last step and what arrives before this one or during it, while the rest waits for the next. -/
theorem splitting_loses_nothing (hl : Law (ComputesAlike (U := U))) {settings : Settings}
    (h : Underway settings e) :
    (∀ id n, e.graph.node? id = some n → (n.pace = .aware ↔ n.pending ≠ [])) ∧
    ∀ id, e.graph.Computes id →
      ((e.history id).receptions ++ e.waiting id).Perm (e.history id).arrivals ∧
      InLine (e.history id).recent (e.waiting id) ∧
      (∀ plan e', runStep plan (.unit id) e = .ok ⟨⟩ e' →
        ∃ seg, e'.history id = e.history id ++ seg ∧ e'.waiting id = [] ∧
          Splits id e.settings.blockSize (fun t => e.settings.sampleOffset t e.blockStart)
            (e.waiting id) seg) ∧
      ∀ input outLength samples e', Reachable settings e →
        process input outLength e = .ok samples e' →
        ∃ (earlier later line : List Pending) (seg : History),
          e'.history id =
            e.history id ++ earlier.map (arrival id) ++ seg ++ later.map (arrival id) ∧
          InLine ((e.history id).recent ++ earlier) line ∧
          Splits id e.settings.blockSize (fun t => e.settings.sampleOffset t e.blockStart) line seg ∧
          (e'.history id).recent = later := by
  have ha := attended_of_underway hl h
  refine ⟨fun id n hn => ha.paced id _ _ (by rw [mailbox?, hn, Option.map_some]), fun id hc =>
    ⟨ha.once id hc, ?_, fun plan e' hstep => ?_, fun input outLength samples e' hreach hp => ?_⟩⟩
  · rw [ha.recent id hc]
    exact inLine_lineUp _
  · obtain ⟨-, hw, seg, hh, hs⟩ := splits_of_runStep hl hstep hc
    exact ⟨seg, hh, hw, hs⟩
  · obtain ⟨earlier, later, seg, hh, hs, -⟩ := splits_of_process hl hreach hp hc
    refine ⟨earlier, later, _, seg, hh, inLine_lineUp _, hs, ?_⟩
    rw [hh, History.recent_append_arrivals, recent_append, hs.settled, List.nil_append]

/-- A number box that leads to a signal, with a plan. -/
def numberBox : Engine CatalogueUnit where
  settings := smallBlocks
  graph :=
    { nodes :=
        #[ some { body := .device (.floatBox ⟨0⟩), ports := { messageInlets := 2, messageOutlets := 1 } },
          some { body := .device (.constant ⟨1⟩), ports := { messageInlets := 1, streamOutlets := 1 } } ]
      connections := [⟨⟨0⟩, 0, ⟨1⟩, 0⟩]
      names := { blockSize := 8 }
      pool :=
        { blockSize := 8, buffers := #[#[0, 0, 0, 0, 0, 0, 0, 0]], readers := #[0], free := [0],
          acquired := 1, released := 1 }
      plan :=
        some { steps := #[.unit ⟨1⟩]
               bindings := #[{}, { outlets := #[.pooled 0], sources := #[.pooled] }]
               buffers := 1 } }

theorem reachable_numberBox : Reachable smallBlocks numberBox := by
  have hbuilt : build smallBlocks [ .addUnit none (CatalogueUnit.floatBox ⟨0⟩),
      .addUnit none (.constant ⟨1⟩), .connect ⟨⟨0⟩, 0, ⟨1⟩, 0⟩, .compile ] = some numberBox := by cbv
  exact (roomy_of_build hbuilt).reachable

/-- A block after which an engine can be worked further has been computed. -/
theorem process_of_after {input : Samples} {outLength : Nat}
    (h : e.after (.process input outLength) = some e') :
    ∃ samples, process input outLength e = .ok samples e' := by
  unfold after perform at h
  simp only [Functor.map, EStateM.map, ofWork] at h
  cases hp : process input outLength e with
  | ok samples e₁ =>
    rw [hp] at h
    cases h
    exact ⟨samples, rfl⟩
  | error how e₁ =>
    rw [hp] at h
    cases h

/-- The number in a box reaches a signal in the middle of a block, and splits the block there. -/
theorem splitting_loses_nothing_box : ∃ (e e' : Engine CatalogueUnit) (samples : Samples),
    Underway smallBlocks e ∧ process #[] 0 e = .ok samples e' ∧ e.graph.Computes ⟨1⟩ ∧
    (e'.history ⟨1⟩).ranges = [(0, 3), (3, 8)] ∧
    ∃ (earlier later line : List Pending) (seg : History),
      e'.history ⟨1⟩ =
        e.history ⟨1⟩ ++ earlier.map (arrival ⟨1⟩) ++ seg ++ later.map (arrival ⟨1⟩) ∧
      InLine ((e.history ⟨1⟩).recent ++ earlier) line ∧
      Splits ⟨1⟩ 8 (fun t => e.settings.sampleOffset t e.blockStart) line seg ∧
      (e'.history ⟨1⟩).recent = later := by
  have hrun : ((numberBox.after (.schedule ⟨0⟩ 0 (.bang 2.5))).any fun e =>
      e.settings.blockSize == 8 && (e.graph.node? ⟨1⟩).any (·.body.computes) &&
      (e.after (.process #[] 0)).any fun e' =>
        (e'.history ⟨1⟩).ranges == [(0, 3), (3, 8)]) = true := by decide +kernel
  obtain ⟨e, he, hrun⟩ := (Option.any_eq_true ..).1 hrun
  rw [Bool.and_eq_true, Bool.and_eq_true, beq_iff_eq, Option.any_eq_true, Option.any_eq_true] at hrun
  obtain ⟨⟨hsize, hcomputes⟩, e', he', hranges⟩ := hrun
  have hreach := Reachable.step reachable_numberBox he
  obtain ⟨samples, hprocess⟩ := process_of_after he'
  obtain ⟨-, hunits⟩ := splitting_loses_nothing CatalogueUnit.steady.alike.computesAlike (.idle hreach)
  obtain ⟨-, -, -, hblocks⟩ := hunits ⟨1⟩ hcomputes
  rw [hsize] at hblocks
  exact ⟨e, e', samples, .idle hreach, hprocess, hcomputes, beq_iff_eq.1 hranges,
    hblocks _ _ _ _ hreach hprocess⟩

end Engine
end Patchbay
