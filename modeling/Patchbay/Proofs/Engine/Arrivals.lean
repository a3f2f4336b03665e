import Patchbay.Proofs.Engine.Splitting
import Patchbay.Proofs.Graph.Inheriting
import Patchbay.Proofs.Planning.Schedule

/-!
# What reaches a unit

Outside of its own step a unit that computes is only ever brought messages, which wait in it
(`quiet_of_moves`); in its step it receives all that waits at first and all that arrives meanwhile
(`splits_of_computeSamples`).
-/

namespace Patchbay

variable {U : Type} [Device U] {R : U → U → Prop} {Q : Pool → Pool → Prop}

/-- That a unit goes on to compute, or not to compute. -/
def ComputesAlike (u v : U) : Prop := Device.computes v = Device.computes u

theorem Law.computesAlike (h : Law (Alike (U := U))) : Law (ComputesAlike (U := U)) where
  refl _ := rfl
  trans _ _ _ h h' := Eq.trans h' h
  receive u inlet message s := (h.receive u inlet message s).mono fun _ h => h.computes
  emit u outlet message s := (h.emit u outlet message s).mono fun _ h => h.computes
  process hp := (h.process hp).computes
  rewired u inlet counts := (h.rewired u inlet counts).computes

theorem Body.Becomes.computes_eq {b b' : Body U} (h : b.Becomes ComputesAlike b') :
    b'.computes = b.computes := by
  cases b <;> cases b' <;> simp only [Body.Becomes] at h
  · exact h
  · rfl

/-- The same units compute before and after some work. -/
theorem Graph.Works.computes_iff {g g' : Graph U} (h : g.Works ComputesAlike Q g') {x : UnitId} :
    g'.Computes x ↔ g.Computes x := by
  constructor
  · rintro ⟨n', hn', hc⟩
    obtain ⟨n, hn⟩ := Graph.contains_iff.1
      ((h.shape.contains x).symm.trans (Graph.contains_iff.2 ⟨n', hn'⟩))
    exact ⟨n, hn, (h.bodies hn hn').computes_eq.symm.trans hc⟩
  · rintro ⟨n, hn, hc⟩
    obtain ⟨n', hn'⟩ := Graph.contains_iff.1
      ((h.shape.contains x).trans (Graph.contains_iff.2 ⟨n, hn⟩))
    exact ⟨n', hn', (h.bodies hn hn').computes_eq.trans hc⟩

namespace Engine

variable {own : UnitId → Prop} {e e' e'' : Engine U} {id : UnitId}

/-! ## Views of an engine -/

/-- What has happened to a unit, oldest first. -/
def history (e : Engine U) (id : UnitId) : History := e.journal.toList.filter (·.concerns id)

/-- What waits in a node, and how it goes about its next step. -/
def mailbox? (e : Engine U) (id : UnitId) : Option (List Pending × Pace) :=
  (e.graph.node? id).map fun n => (n.pending, n.pace)

/-- What waits in a node; in a missing one nothing does. -/
def waiting (e : Engine U) (id : UnitId) : List Pending := ((e.mailbox? id).map Prod.fst).getD []

/-- Whether a node goes about its next step as it should: messages that wait are what splits it. -/
def Paced (e : Engine U) (id : UnitId) : Prop :=
  ∀ line pace, e.mailbox? id = some (line, pace) → (pace = .aware ↔ line ≠ [])

omit [Device U] in
theorem waiting_congr (h : e'.mailbox? id = e.mailbox? id) : e'.waiting id = e.waiting id := by
  rw [waiting, waiting, h]

omit [Device U] in
theorem paced_congr (h : e'.mailbox? id = e.mailbox? id) : e'.Paced id ↔ e.Paced id := by
  rw [Paced, Paced, h]

omit [Device U] in
theorem mailbox?_of_graph (h : e'.graph = e.graph) : e'.mailbox? id = e.mailbox? id := by
  rw [mailbox?, mailbox?, h]

omit [Device U] in
theorem mailbox?_modifyNode (e : Engine U) (target : UnitId) {f : Node U → Node U}
    (hpending : ∀ n, (f n).pending = n.pending) (hpace : ∀ n, (f n).pace = n.pace) :
    (e.modifyNode target f).mailbox? id = e.mailbox? id := by
  rw [mailbox?, mailbox?, modifyNode, Graph.node?_modifyNode]
  split
  · cases e.graph.node? id <;> simp [hpending, hpace]
  · rfl

omit [Device U] in
theorem mailbox?_modifyNode_of_ne (e : Engine U) {target : UnitId} {f : Node U → Node U}
    (h : id ≠ target) : (e.modifyNode target f).mailbox? id = e.mailbox? id := by
  rw [mailbox?, mailbox?, modifyNode, Graph.node?_modifyNode, if_neg h]

omit [Device U] in
theorem history_of_journal {hs : List Happening} (hj : e'.journal = e.journal ++ hs.toArray)
    (h : ∀ x ∈ hs, x.concerns id = false) : e'.history id = e.history id := by
  have hnone : hs.filter (·.concerns id) = [] :=
    List.filter_eq_nil_iff.2 fun x hx => Bool.eq_false_iff.1 (h x hx)
  rw [history, history, hj, Array.toList_append, List.filter_append, hnone, List.append_nil]

omit [Device U] in
/-- One more thing has happened. -/
theorem history_record (e : Engine U) (x : Happening) :
    (e.record x).history id = e.history id ++ if x.concerns id then [x] else [] := by
  rw [history, history, record, Array.toList_push, List.filter_append, List.filter_cons]
  split <;> rfl

/-- What a script does besides sending concerns no unit. -/
theorem concerns_of_mem_happenings {α : Type} {unit : UnitId} {label : String} {script : Script α}
    {q : Queue} {x : Happening} (h : x ∈ script.happenings unit label q) : x.concerns id = false :=
  script.forall_happenings (P := fun x => x.concerns id = false) (fun _ => rfl) (fun _ _ => rfl)
    (fun _ => rfl) q x h

theorem history_reactQuietly (e : Engine U) (target : UnitId) (unit : U) (script : Script U) :
    (e.reactQuietly target unit script).history id = e.history id :=
  history_of_journal (journal_reactQuietly e target unit script) fun _ => concerns_of_mem_happenings

theorem graph_reactQuietly (e : Engine U) (target : UnitId) (unit : U) (script : Script U) :
    ∃ unit', (e.reactQuietly target unit script).graph =
      e.graph.modifyNode target fun n => { n with body := .device unit' } := by
  obtain ⟨-, hg, -⟩ := carryOut_spec (P := fun _ => True) target (Device.label unit) script
    (.of_forall (fun _ => ⟨⟩) _) e
  refine ⟨(carryOut target (Device.label unit) script e).1, ?_⟩
  rw [reactQuietly, react, ← hg]
  rfl

theorem mailbox?_reactQuietly (e : Engine U) (target : UnitId) (unit : U) (script : Script U) :
    (e.reactQuietly target unit script).mailbox? id = e.mailbox? id := by
  obtain ⟨unit', hg⟩ := graph_reactQuietly e target unit script
  exact (mailbox?_of_graph (e := e.modifyNode target fun n => { n with body := .device unit' }) hg).trans
    (mailbox?_modifyNode e target (fun _ => rfl) fun _ => rfl)

theorem history_received (e : Engine U) (target : UnitId) (unit : U) (inlet : Nat)
    (message : Message) :
    (e.received target unit inlet message).history id =
      e.history id ++ if target = id then [.received target inlet message] else [] := by
  rw [received, history_reactQuietly, history_record]
  simp [Happening.concerns]

theorem mailbox?_received (e : Engine U) (target : UnitId) (unit : U) (inlet : Nat)
    (message : Message) : (e.received target unit inlet message).mailbox? id = e.mailbox? id :=
  mailbox?_reactQuietly ..

omit [Device U] in
/-- A message arrives at a unit. -/
theorem mailbox?_defer (e : Engine U) (target : UnitId) (inlet : Nat) (message : Message) :
    (e.defer target inlet message).mailbox? id =
      if id = target then (e.mailbox? id).map fun box => (enqueue box.1 ⟨inlet, message⟩, .aware)
      else e.mailbox? id := by
  show (e.modifyNode target _).mailbox? id = _
  rw [mailbox?, mailbox?, modifyNode, Graph.node?_modifyNode]
  split
  · cases e.graph.node? id <;> rfl
  · rfl

omit [Device U] in
theorem history_defer (e : Engine U) (target : UnitId) (inlet : Nat) (message : Message) :
    (e.defer target inlet message).history id =
      e.history id ++ if target = id then [.deferred target inlet message] else [] := by
  rw [defer, history_record]
  simp [Happening.concerns]
  rfl

omit [Device U] in
theorem nextPending?_eq_some {next : Pending} (h : e.nextPending? id = some (next, e')) :
    ∃ n rest, e.graph.node? id = some n ∧ n.pending = next :: rest ∧
      e' = e.modifyNode id fun n => { n with pending := rest } := by
  unfold nextPending? at h
  split at h
  · next first rest hpending =>
    obtain ⟨n, hn, hp⟩ := Option.map_eq_some_iff.1 hpending
    cases h
    exact ⟨n, rest, hn, hp, rfl⟩
  · cases h

omit [Device U] in
theorem mailbox?_afterCompute (e : Engine U) (target : UnitId) (handle : Option Handle) (unit : U)
    (outs : Outputs) : (e.afterCompute target handle unit outs).mailbox? id = e.mailbox? id :=
  mailbox?_modifyNode _ target (fun _ => rfl) fun _ => rfl

/-! ## Moves keep the shape -/

theorem works_reactQuietly (hR : Law R) (e : Engine U) {target : UnitId} {n : Node U} {unit : U}
    {script : Script U} (hn : e.graph.node? target = some n) (hu : n.body = .device unit)
    (h : script.Ends (R unit)) : e.Works R Eq (e.reactQuietly target unit script) :=
  works_trans hR (works_react hR e target hn hu h) (works_of_graph hR rfl rfl rfl rfl)

theorem works_received (hR : Law R) (e : Engine U) {target : UnitId} {n : Node U} {unit : U}
    (inlet : Nat) (message : Message) (hn : e.graph.node? target = some n)
    (hu : n.body = .device unit) : e.Works R Eq (e.received target unit inlet message) :=
  works_trans hR
    (works_of_graph hR rfl rfl rfl rfl : e.Works R Eq (e.record (.received target inlet message)))
    (works_reactQuietly hR _ hn hu (hR.receive ..))

theorem works_of_move (hR : Law R) (h : Move own e e') : e.Works R (fun _ _ => True) e' := by
  have weaken : ∀ {e e' : Engine U}, e.Works R Eq e' → e.Works R (fun _ _ => True) e' :=
    fun h => ⟨h.settings, h.blockStart, h.hostInput, h.graph.mono fun _ => ⟨⟩⟩
  cases h with
  | ripple h =>
    cases h with
    | report | collect => exact weaken (works_of_graph hR rfl rfl rfl rfl)
    | defer inlet message => exact weaken (works_defer hR e _ inlet message)
    | receive inlet message hn hu => exact weaken (works_received hR e inlet message hn hu)
  | fall => exact weaken (works_of_graph hR rfl rfl rfl rfl)
  | emit outlet message hn hu => exact weaken (works_reactQuietly hR e hn hu (hR.emit ..))
  | pool pool => exact works_withPool hR.refl e ⟨⟩
  | take _ hnext => exact weaken (works_nextPending? hR hnext)
  | @compute id _ _ _ _ _ outs first last _ hn hu hp =>
    have hrecord : e.Works R Eq (e.record (.computed id first last)) :=
      works_of_graph hR rfl rfl rfl rfl
    exact weaken (works_trans hR hrecord (works_afterCompute hR _ id outs hn hu (hR.process hp)))
  | receive inlet message _ hn hu => exact weaken (works_received hR e inlet message hn hu)
  | calm => exact weaken (works_calm hR e _)

theorem works_of_moves (hR : Law R) (h : Moves own e e') : e.Works R (fun _ _ => True) e' := by
  induction h with
  | refl => exact ⟨rfl, rfl, rfl, .refl hR.refl (fun _ => ⟨⟩) _⟩
  | tail _ hm ih => exact ih.trans hR.trans (fun _ _ _ _ _ => ⟨⟩) (works_of_move hR hm)

/-- The settings are made once and for all. -/
theorem settings_of_deed {command : Command U} (h : Deed command e e') :
    e'.settings = e.settings := by
  cases h with
  | idle | declined | edited | removed | scheduled | cancelled | sent | unheard | listened | taken => rfl
  | planned h =>
    obtain ⟨g, -, rfl⟩ := compile_eq_ok.1 h
    rfl
  | played _ h =>
    obtain ⟨drained, plan, planned, ended, hdrain, hplan, hplay, rfl⟩ := process_eq_ok h
    obtain ⟨g, -, rfl⟩ := compile_eq_ok.1 hplan
    have hdrained := (works_of_moves .any (moves_drain (fun _ => True) hdrain)).settings
    exact (works_of_moves .any (moves_play hplay)).settings.trans hdrained

theorem settings_of_reachable {settings : Settings} (h : Reachable settings e) :
    e.settings = settings := by
  refine h.keeps (fun e hnew => ?_) fun _ _ _ hd hs => (settings_of_deed hd).trans hs
  obtain ⟨_, -, hnew⟩ := bind_eq_ok.1 hnew
  obtain ⟨_, -, hnew⟩ := bind_eq_ok.1 hnew
  obtain ⟨_, -, hnew⟩ := bind_eq_ok.1 hnew
  cases hnew
  rfl

/-! ## Moves of others -/

/-- What a move that is not of the unit's own step does to it. -/
inductive Stirs (id : UnitId) (e e' : Engine U) : Prop
  | still : e'.mailbox? id = e.mailbox? id → e'.history id = e.history id → Stirs id e e'
  /-- A message arrives. -/
  | arrives (p : Pending) : e.graph.Computes id →
      e'.mailbox? id = (e.mailbox? id).map (fun box => (enqueue box.1 p, .aware)) →
      e'.history id = e.history id ++ [arrival id p] → Stirs id e e'
  /-- A message is received at once. -/
  | answers : e.graph.contains id = true → ¬ e.graph.Computes id →
      e'.mailbox? id = e.mailbox? id → Stirs id e e'

theorem stirs_of_move (h : Move own e e') (hid : ¬ own id) : Stirs id e e' := by
  have hother : ∀ {other}, own other → id ≠ other := fun ho he => hid (he ▸ ho)
  cases h with
  | ripple h =>
    cases h with
    | report r => exact .still rfl (by simp [history_record, Happening.concerns])
    | collect => exact .still rfl ((history_record _ _).trans (by simp [Happening.concerns]; rfl))
    | @defer target n unit inlet message hn hu hc =>
      by_cases hx : target = id
      · subst hx
        refine .arrives ⟨inlet, message⟩ ⟨n, hn, by rw [hu]; exact hc⟩ ?_ ?_
        · rw [mailbox?_defer, if_pos rfl]
        · rw [history_defer, if_pos rfl]
          rfl
      · exact .still (by rw [mailbox?_defer, if_neg (Ne.symm hx)])
          (by rw [history_defer, if_neg hx, List.append_nil])
    | @receive target n unit inlet message hn hu hc =>
      by_cases hx : target = id
      · subst hx
        refine .answers (Graph.contains_iff.2 ⟨n, hn⟩) ?_ (mailbox?_received ..)
        rintro ⟨n', hn', hc'⟩
        rw [hn] at hn'
        cases hn'
        rw [hu] at hc'
        exact absurd (hc'.symm.trans hc) (by decide)
      · exact .still (mailbox?_received ..) (by rw [history_received, if_neg hx, List.append_nil])
  | fall => exact .still rfl ((history_record _ _).trans (by simp [Happening.concerns]; rfl))
  | emit => exact .still (mailbox?_reactQuietly ..) (history_reactQuietly ..)
  | pool => exact .still rfl rfl
  | take ho hnext =>
    obtain ⟨n, rest, -, -, rfl⟩ := nextPending?_eq_some hnext
    exact .still (mailbox?_modifyNode_of_ne e (hother ho)) rfl
  | compute ho =>
    refine .still (mailbox?_afterCompute ..) ?_
    refine (history_record e _).trans ?_
    simp [Happening.concerns, (hother ho).symm]
  | receive inlet message ho =>
    exact .still (mailbox?_received ..)
      (by rw [history_received, if_neg (hother ho).symm, List.append_nil])
  | calm ho => exact .still (mailbox?_modifyNode_of_ne e (hother ho)) rfl

theorem contains_of_moves (h : Moves own e e') : e'.graph.contains id = e.graph.contains id :=
  (works_of_moves .any h).graph.shape.contains id

/-- Nothing happens to what is not there. -/
theorem history_of_missing (h : Moves own e e') (hid : ¬ own id)
    (hmissing : e.graph.contains id = false) : e'.history id = e.history id := by
  induction h with
  | refl => rfl
  | tail hms hm ih =>
    have hmid := (contains_of_moves hms).trans hmissing
    cases stirs_of_move hm hid with
    | still _ hh => exact hh.trans ih
    | arrives _ hc =>
      obtain ⟨n, hn, -⟩ := hc
      rw [Graph.contains_iff.2 ⟨n, hn⟩] at hmid
      cases hmid
    | answers hc =>
      rw [hc] at hmid
      cases hmid

theorem paced_of_moves (h : Moves own e e') (hid : ¬ own id) (hp : e.Paced id) : e'.Paced id := by
  induction h with
  | refl => exact hp
  | @tail e₁ e₂ _ hm ih =>
    cases stirs_of_move hm hid with
    | still hbox | answers _ _ hbox => exact (paced_congr hbox).2 ih
    | arrives p _ hbox =>
      intro line pace hnow
      rw [hbox] at hnow
      obtain ⟨box, -, hline⟩ := Option.map_eq_some_iff.1 hnow
      cases hline
      have hne : enqueue box.1 p ≠ [] :=
        List.ne_nil_of_mem (mem_insertBehind.2 (.inl rfl))
      exact ⟨fun _ => hne, fun _ => rfl⟩

/-- Outside of its step a unit that computes is brought messages, and nothing else happens to it. -/
theorem quiet_of_moves (hl : Law (ComputesAlike (U := U))) (h : Moves own e e') (hid : ¬ own id)
    (hc : e.graph.Computes id) :
    e'.graph.Computes id ∧ ∃ ps : List Pending,
      e'.history id = e.history id ++ ps.map (arrival id) ∧
      e'.waiting id = lineUp (e.waiting id) ps := by
  refine ⟨(works_of_moves hl h).graph.computes_iff.2 hc, ?_⟩
  induction h with
  | refl => exact ⟨[], by simp, rfl⟩
  | @tail e₁ e₂ hms hm ih =>
    obtain ⟨ps, hh, hw⟩ := ih
    have hc₁ := (works_of_moves hl hms).graph.computes_iff.2 hc
    cases stirs_of_move hm hid with
    | still hbox hhist => exact ⟨ps, hhist.trans hh, (waiting_congr hbox).trans hw⟩
    | arrives p _ hbox hhist =>
      obtain ⟨n, hn, -⟩ := hc₁
      have hbox₁ : e₁.mailbox? id = some (n.pending, n.pace) := by rw [mailbox?, hn, Option.map_some]
      rw [hbox₁] at hbox
      refine ⟨ps ++ [p], by rw [hhist, hh, List.map_append, List.append_assoc]; rfl, ?_⟩
      rw [lineUp_append, ← hw, waiting, waiting, hbox, hbox₁]
      rfl
    | answers _ hnot => exact (hnot hc₁).elim

/-! ## The unit's own step -/

section Step

variable {read : Engine U → Inputs} {p p' : Progress}

theorem compute_of_computes {stop : Nat} (h : compute read id stop p e = .ok p' e')
    (hc : e.graph.Computes id) :
    e'.history id = e.history id ++ [.computed id p.last stop] ∧ e'.mailbox? id = e.mailbox? id ∧
      p'.last = stop := by
  obtain ⟨n, hn, hcn⟩ := hc
  rw [compute_eq, hn] at h
  cases hu : n.body with
  | subgraph => simp [hu, Body.computes] at hcn
  | device unit =>
    simp only [hu] at h
    split at h
    · cases h
    · cases h
      refine ⟨?_, mailbox?_afterCompute .., rfl⟩
      refine (history_record e (.computed id p.last stop)).trans ?_
      simp [Happening.concerns]

theorem mailbox?_of_compute {stop : Nat} (h : compute read id stop p e = .ok p' e') :
    e'.mailbox? id = e.mailbox? id := by
  rw [compute_eq] at h
  split at h
  · cases h
    rfl
  · split at h
    · cases h
      rfl
    · split at h
      · cases h
      · cases h
        exact mailbox?_afterCompute ..

theorem mailbox?_of_computeUpTo {stop : Nat} (h : computeUpTo read id stop p e = .ok p' e') :
    e'.mailbox? id = e.mailbox? id := by
  unfold computeUpTo at h
  split at h
  · exact mailbox?_of_compute h
  · cases h
    rfl

theorem computeUpTo_of_computes {stop : Nat} (h : computeUpTo read id stop p e = .ok p' e')
    (hc : e.graph.Computes id) :
    e'.history id = e.history id ++ upTo id p.last stop ∧ e'.mailbox? id = e.mailbox? id ∧
      p'.last = max p.last stop := by
  unfold computeUpTo at h
  unfold upTo
  by_cases hlt : p.last < stop
  · rw [if_pos hlt] at h ⊢
    rw [max_eq_right hlt.le]
    exact compute_of_computes h hc
  · rw [if_neg hlt] at h ⊢
    cases h
    exact ⟨by simp, rfl, (max_eq_left (Nat.not_lt.1 hlt)).symm⟩

theorem receivePending_of_computes (hl : Law (ComputesAlike (U := U))) (hc : e.graph.Computes id)
    (next : Pending) : ∃ news : List Pending,
      (e.receivePending id next).history id =
        e.history id ++ .received id next.inlet next.message :: news.map (arrival id) ∧
      (e.receivePending id next).waiting id = lineUp (e.waiting id) news := by
  obtain ⟨n, hn, hcn⟩ := hc
  cases hu : n.body with
  | subgraph => simp [hu, Body.computes] at hcn
  | device unit =>
    rw [receivePending_eq hn hu]
    have hreceived := works_received hl e next.inlet next.message hn hu
    have hc₁ := hreceived.graph.computes_iff.2 ⟨n, hn, hcn⟩
    obtain ⟨-, news, hh, hw⟩ := quiet_of_moves hl
      (strides_runAll (fun _ => False) 1 ((e.answers id unit next.inlet next.message).map .dispatch)
        (e.received id unit next.inlet next.message)).moves not_false hc₁
    refine ⟨news, ?_, ?_⟩
    · rw [hh, history_received, if_pos rfl, List.append_assoc]
      rfl
    · rw [hw, waiting_congr (mailbox?_received ..)]

omit [Device U] in
theorem waiting_of_nextPending?_eq_none (h : e.nextPending? id = none) : e.waiting id = [] := by
  rw [waiting, mailbox?]
  unfold nextPending? at h
  cases hn : e.graph.node? id with
  | none => rfl
  | some n =>
    rw [hn, Option.map_some] at h
    cases hp : n.pending with
    | nil => simp [hp]
    | cons next rest => simp [hp] at h

/-- When the pieces come to an end nothing waits any more. -/
theorem waiting_of_computePieces {rounds : Nat} (h : computePieces read id rounds p e = .ok p' e') :
    e'.waiting id = [] := by
  induction rounds generalizing p e with
  | zero => cases h
  | succ rounds ih =>
    rw [computePieces, run_get_bind] at h
    cases hnext : e.nextPending? id with
    | none =>
      simp only [hnext] at h
      cases h
      exact waiting_of_nextPending?_eq_none hnext
    | some r =>
      obtain ⟨next, e₁⟩ := r
      simp only [hnext] at h
      rw [run_set_bind] at h
      obtain ⟨p₂, e₂, hup, h⟩ := run_bind_eq_ok.1 h
      exact ih h

/-- The pieces take their course. -/
theorem course_of_computePieces (hl : Law (ComputesAlike (U := U))) {rounds : Nat}
    (h : computePieces read id rounds p e = .ok p' e') (hc : e.graph.Computes id) :
    ∃ seg, e'.history id = e.history id ++ seg ∧
      Course id (fun t => e.settings.sampleOffset t e.blockStart) p.last (e.waiting id) seg
        p'.last := by
  induction rounds generalizing p e with
  | zero => cases h
  | succ rounds ih =>
    rw [computePieces, run_get_bind] at h
    cases hnext : e.nextPending? id with
    | none =>
      simp only [hnext] at h
      cases h
      rw [waiting_of_nextPending?_eq_none hnext]
      exact ⟨[], by simp, .done⟩
    | some r =>
      obtain ⟨next, e₁⟩ := r
      simp only [hnext] at h
      rw [run_set_bind] at h
      obtain ⟨p₂, e₂, hup, h⟩ := run_bind_eq_ok.1 h
      rw [run_modify_bind] at h
      have htake := works_nextPending? hl hnext
      have hc₁ := htake.graph.computes_iff.2 hc
      have hmoves := works_of_moves hl (strides_computeUpTo rfl hup).moves
      have hc₂ := hmoves.graph.computes_iff.2 hc₁
      have hworks := works_receivePending hl e₂ id next
      obtain ⟨hup₁, hbox, hlast⟩ := computeUpTo_of_computes hup hc₁
      obtain ⟨news, hh, hw⟩ := receivePending_of_computes hl hc₂ next
      obtain ⟨seg, hseg, hcourse⟩ := ih h (hworks.graph.computes_iff.2 hc₂)
      -- The first message has been taken out, and the rest waits.
      obtain ⟨n, rest, hn, hp, rfl⟩ := nextPending?_eq_some hnext
      have hwaiting : e.waiting id = next :: rest := by
        rw [waiting, mailbox?, hn]
        exact hp
      have hrest : (e.modifyNode id fun n => { n with pending := rest }).waiting id = rest := by
        rw [waiting, mailbox?, modifyNode, Graph.node?_modifyNode, if_pos rfl, hn]
        rfl
      have hsettings : (e₂.receivePending id next).settings = e.settings :=
        hworks.settings.trans hmoves.settings
      have hstart : (e₂.receivePending id next).blockStart = e.blockStart :=
        hworks.blockStart.trans hmoves.blockStart
      rw [hsettings, hstart, hw, waiting_congr hbox, hrest, hlast] at hcourse
      refine ⟨upTo id p.last (e.settings.sampleOffset next.message.timestamp e.blockStart) ++
        .received id next.inlet next.message :: news.map (arrival id) ++ seg, ?_, ?_⟩
      · rw [hseg, hh, hup₁]
        simp only [List.append_assoc]
        rfl
      · rw [hwaiting]
        exact .next hcourse

theorem sampleOffset_le (s : Settings) (timestamp blockStart : Float) :
    s.sampleOffset timestamp blockStart ≤ s.blockSize := min_le_right _ _

omit [Device U] in
theorem waiting_eq_of_node? {n : Node U} (hn : e.graph.node? id = some n) :
    e.waiting id = n.pending := by
  rw [waiting, mailbox?, hn]
  rfl

omit [Device U] in
theorem mailbox?_calm (e : Engine U) :
    (e.modifyNode id fun n => { n with pace := .free }).mailbox? id =
      (e.mailbox? id).map fun box => (box.1, .free) := by
  rw [mailbox?, mailbox?, modifyNode, Graph.node?_modifyNode, if_pos rfl]
  cases e.graph.node? id <;> rfl

/-- The step of a unit that computes: nothing waits in it afterwards, and the block is split. -/
theorem splits_of_computeSamples (hl : Law (ComputesAlike (U := U))) {n : Node U}
    (hn : e.graph.node? id = some n) (hc : e.graph.Computes id) (hp : p.last = 0)
    (h : computeSamples read id n p e = .ok p' e') :
    e'.waiting id = [] ∧ ∃ seg, e'.history id = e.history id ++ seg ∧
      Splits id e.settings.blockSize (fun t => e.settings.sampleOffset t e.blockStart)
        (e.waiting id) seg := by
  rw [computeSamples, run_get_bind, ← waiting_eq_of_node? hn] at h
  split at h
  · next hempty =>
    have hnone := List.isEmpty_iff.1 hempty
    obtain ⟨hh, hbox, -⟩ := compute_of_computes h hc
    rw [waiting_congr hbox, hnone]
    refine ⟨rfl, _, hh, ?_⟩
    rw [hp]
    exact splits_whole ..
  · next hsome =>
    have hline : e.waiting id ≠ [] := fun hnil => hsome (List.isEmpty_iff.2 hnil)
    obtain ⟨p₁, e₁, hpieces, h⟩ := run_bind_eq_ok.1 h
    obtain ⟨p₂, e₂, hup, h⟩ := run_bind_eq_ok.1 h
    cases h
    obtain ⟨seg, hseg, hcourse⟩ := course_of_computePieces hl hpieces hc
    have hmoves := works_of_moves hl (strides_computePieces rfl hpieces).moves
    obtain ⟨hh, hbox, -⟩ := computeUpTo_of_computes hup (hmoves.graph.computes_iff.2 hc)
    have hnone := waiting_of_computePieces hpieces
    refine ⟨?_, seg ++ upTo id p₁.last e.settings.blockSize, ?_, ?_⟩
    · rw [← waiting_congr hbox, waiting] at hnone
      rw [waiting, mailbox?_calm]
      cases hm : e₂.mailbox? id with
      | none => rfl
      | some box =>
        rw [hm] at hnone
        exact hnone
    · show e₂.history id = _
      rw [hh, hseg, List.append_assoc]
    · rw [hp] at hcourse
      exact splits_of_course (fun t => sampleOffset_le ..) hline hcourse

/-- Whatever a node is, it is in order after its step. -/
theorem paced_of_computeSamples {n : Node U} (h : computeSamples read id n p e = .ok p' e')
    (hp : e.Paced id) : e'.Paced id := by
  rw [computeSamples, run_get_bind] at h
  split at h
  · exact (paced_congr (mailbox?_of_compute h)).2 hp
  · obtain ⟨p₁, e₁, hpieces, h⟩ := run_bind_eq_ok.1 h
    obtain ⟨p₂, e₂, hup, h⟩ := run_bind_eq_ok.1 h
    cases h
    have hnone := waiting_of_computePieces hpieces
    rw [← waiting_congr (mailbox?_of_computeUpTo hup), waiting] at hnone
    intro line pace hbox
    rw [mailbox?_calm] at hbox
    obtain ⟨box, hm, hline⟩ := Option.map_eq_some_iff.1 hbox
    rw [hm] at hnone
    cases hline
    exact ⟨fun h => (by cases h), fun h => (h hnone).elim⟩

end Step

/-! ## What a step leads to -/

omit [Device U] in
/-- A unit takes the first of the messages that wait in it. -/
theorem waiting_of_nextPending?_eq_some {next : Pending} (h : e.nextPending? id = some (next, e')) :
    e.waiting id = next :: e'.waiting id := by
  obtain ⟨n, rest, hn, hpending, rfl⟩ := nextPending?_eq_some h
  have hnode : (e.modifyNode id fun n => { n with pending := rest }).graph.node? id =
      some { n with pending := rest } := by
    rw [Engine.modifyNode, Graph.node?_modifyNode, if_pos rfl, hn]
    rfl
  rw [waiting_eq_of_node? hn, waiting_eq_of_node? hnode, hpending]

/-- That what is known of a unit and of how far it has come is kept by all that happens in its step:
by each piece that it computes, each message that it takes and receives, and the end. No message that
it receives makes others arrive. -/
structure Sweeps (read : Engine U → Inputs) (id : UnitId) (size : Nat)
    (faulty : Fault → Engine U → Prop) (P : Progress → Engine U → Prop) : Prop where
  blockSize : ∀ {p e}, P p e → e.settings.blockSize = size
  last : ∀ {p e}, P p e → p.last ≤ size
  compute : ∀ {p e stop}, P p e → p.last ≤ stop → stop ≤ size →
    Yields faulty (fun p' e' => P p' e' ∧ p'.last = stop) (compute read id stop p e)
  take : ∀ {p e next e'}, P p e → e.nextPending? id = some (next, e') → P p e'
  receive : ∀ {p e} (next : Pending), P p e → P p (e.receivePending id next) ∧
    (e.receivePending id next).waiting id = e.waiting id
  calm : ∀ {p e}, P p e → P p (e.modifyNode id fun n => { n with pace := .free })

namespace Sweeps

variable {size : Nat} {faulty : Fault → Engine U → Prop} {P : Progress → Engine U → Prop}
  {read : Engine U → Inputs} {p : Progress} (h : Sweeps read id size faulty P)
include h

/-- A unit goes on to an offset of its block. -/
theorem computeUpTo (hp : P p e) {stop : Nat} (hstop : stop ≤ size) :
    Yields faulty (fun p' e' => P p' e' ∧ stop ≤ p'.last) (computeUpTo read id stop p e) := by
  unfold Engine.computeUpTo
  split
  · next hlt => exact (h.compute hp hlt.le hstop).mono fun _ _ h => ⟨h.1, h.2.ge⟩
  · next hnot => exact ⟨hp, Nat.not_lt.1 hnot⟩

/-- All that waits is received, each message at its offset, in as many rounds. -/
theorem computePieces (hp : P p e) {rounds : Nat} (hrounds : (e.waiting id).length < rounds) :
    Yields faulty P (computePieces read id rounds p e) := by
  -- each round takes one message away, and none arrives
  induction rounds generalizing p e with
  | zero => exact absurd hrounds (Nat.not_lt_zero _)
  | succ rounds ih =>
    rw [Engine.computePieces, run_get_bind]
    cases hnext : e.nextPending? id with
    | none => exact hp
    | some r =>
      obtain ⟨next, e₁⟩ := r
      dsimp only
      rw [run_set_bind]
      have hp₁ := h.take hp hnext
      have hstop : e₁.settings.sampleOffset next.message.timestamp e₁.blockStart ≤ size := by
        rw [← h.blockSize hp₁]
        exact sampleOffset_le _ _ _
      refine ((h.computeUpTo hp₁ hstop).and fun p₂ e₂ => mailbox?_of_computeUpTo).bind ?_
      rintro p₂ e₂ ⟨⟨hp₂, -⟩, hbox⟩
      rw [run_modify_bind]
      obtain ⟨hp₃, hsame⟩ := h.receive next hp₂
      apply ih hp₃
      rw [waiting_of_nextPending?_eq_some hnext, List.length_cons] at hrounds
      rw [hsame, waiting_congr hbox]
      omega

/-- A unit comes to the end of its block. -/
theorem computeSamples (hp : P p e) {n : Node U} (hn : e.graph.node? id = some n) :
    Yields faulty (fun p' e' => P p' e' ∧ p'.last = size) (computeSamples read id n p e) := by
  rw [Engine.computeSamples, run_get_bind, h.blockSize hp]
  split
  · exact h.compute hp (h.last hp) (Nat.le_refl _)
  · have hrounds : (e.waiting id).length < n.pending.length + roundLimit := by
      rw [waiting_eq_of_node? hn]
      exact Nat.lt_add_of_pos_right (by decide)
    refine (h.computePieces hp hrounds).bind fun p₁ e₁ hp₁ => ?_
    refine (h.computeUpTo hp₁ (Nat.le_refl _)).bind ?_
    rintro p₂ e₂ ⟨hp₂, hend⟩
    exact ⟨h.calm hp₂, Nat.le_antisymm (h.last hp₂) hend⟩

end Sweeps

end Engine
end Patchbay
