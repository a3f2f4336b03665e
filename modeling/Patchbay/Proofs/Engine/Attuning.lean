import Patchbay.Proofs.Catalogue.Modes
import Patchbay.Proofs.Engine.Buses
import Patchbay.Proofs.Engine.Notices
import Patchbay.Proofs.Engine.Topology
import Patchbay.Proofs.Graph.Informing

/-!
# Units work as they are wired

Whatever commands have led to an engine, what a unit was told last of its streams is how many arrive at
each of its inlets (`streamsHeard_of_reachable`). What a unit makes of that stays until it is told
again, since units keep it when a block is computed (`Lasting`). So stream operators and oscillators are
always in the mode that goes with their wiring (`modes_match_wiring`).
-/

namespace Patchbay

open Catalogue (streamsAt)

variable {U : Type} [Device U]

/-! ## What units keep until they are told of streams -/

/-- A property that units keep while they work. -/
structure Lasting (P : U → Prop) : Prop where
  receive : ∀ {u} inlet message here, P u → (Device.receive u inlet message here).Ends P
  emit : ∀ {u} outlet message here, P u → (Device.emit u outlet message here).Ends P
  process : ∀ {u u' ins outs outs' first last}, P u →
    Device.process u ins outs first last = .ok (u', outs') → P u'

/-- What a unit of the catalogue makes of the number of its streams lasts. -/
theorem lasting_attuned {f : CatalogueUnit → U} (hf : Faithful f) (u : CatalogueUnit)
    (known : Nat → Nat) : Lasting fun v => ∃ w, v = f w ∧ u.Attuned known w where
  receive inlet message here h := by
    obtain ⟨w, rfl, hw⟩ := h
    rw [hf.receive]
    exact .map ((CatalogueUnit.attuned_receive hw inlet message here).mono fun w hw => ⟨w, rfl, hw⟩)
  emit outlet message here h := by
    obtain ⟨w, rfl, hw⟩ := h
    rw [hf.emit]
    exact .map ((CatalogueUnit.attuned_emit hw outlet message).mono fun w hw => ⟨w, rfl, hw⟩)
  process {u u' ins outs outs' first last} h hp := by
    obtain ⟨w, rfl, hw⟩ := h
    rw [hf.process] at hp
    cases hr : Device.process w ins outs first last with
    | error how =>
      rw [hr] at hp
      cases hp
    | ok r =>
      rw [hr] at hp
      cases hp
      exact ⟨r.1, rfl, CatalogueUnit.attuned_process hw hr⟩

namespace Engine

variable {own : UnitId → Prop} {command : Command U} {e e' : Engine U} {x : UnitId}

/-- That a node, if it is there, is a unit with a property. -/
def Holds (e : Engine U) (x : UnitId) (P : U → Prop) : Prop :=
  ∀ n, e.graph.node? x = some n → ∃ u, n.body = .device u ∧ P u

/-! ## Blocks -/

section Moves

variable {P : U → Prop}

omit [Device U] in
theorem holds_of_nodes (h : e.Holds x P) (hnodes : e'.graph.nodes = e.graph.nodes) : e'.Holds x P := by
  intro n hn
  rw [Graph.node?_eq, hnodes, ← Graph.node?_eq] at hn
  exact h n hn

omit [Device U] in
theorem holds_of_modifyNode (h : e.Holds x P) {id : UnitId} {f : Node U → Node U}
    (hgraph : e'.graph.nodes = (e.graph.modifyNode id f).nodes)
    (hf : ∀ n, e.graph.node? x = some n → id = x → ∃ u, (f n).body = .device u ∧ P u) :
    e'.Holds x P := by
  intro n' hn'
  rw [Graph.node?_eq, hgraph, ← Graph.node?_eq, Graph.node?_modifyNode] at hn'
  split at hn'
  · next hx =>
    obtain ⟨n, hn, rfl⟩ := Option.map_eq_some_iff.1 hn'
    exact hf n hn hx.symm
  · exact h n' hn'

omit [Device U] in
/-- What does not touch units leaves them what they are. -/
theorem holds_of_bodies (h : e.Holds x P) {id : UnitId} {f : Node U → Node U}
    (hgraph : e'.graph.nodes = (e.graph.modifyNode id f).nodes) (hf : ∀ n, (f n).body = n.body) :
    e'.Holds x P :=
  holds_of_modifyNode h hgraph fun n hn _ => by
    rw [hf]
    exact h n hn

theorem holds_reactQuietly (h : e.Holds x P) {id : UnitId} {n : Node U} {unit : U}
    (hn : e.graph.node? id = some n) (hu : n.body = .device unit) {script : Script U}
    (hs : P unit → script.Ends P) : (e.reactQuietly id unit script).Holds x P := by
  by_cases hx : id = x
  · subst hx
    obtain ⟨u, hu', hunit⟩ := h n hn
    cases hu.symm.trans hu'
    obtain ⟨hP, hgraph, -⟩ := carryOut_spec id (Device.label unit) script (hs hunit) e
    have hnodes : (e.reactQuietly id unit script).graph.nodes = (e.graph.modifyNode id fun n =>
        { n with body := .device (carryOut id (Device.label unit) script e).1 }).nodes := by
      rw [← hgraph]
      rfl
    exact holds_of_modifyNode h hnodes fun _ _ _ => ⟨_, rfl, hP⟩
  · obtain ⟨unit', hgraph⟩ := graph_reactQuietly e id unit script
    exact holds_of_modifyNode h (congrArg Graph.nodes hgraph) fun _ _ hid => absurd hid hx

theorem holds_received (hP : Lasting P) (h : e.Holds x P) {id : UnitId} {n : Node U} {unit : U}
    (hn : e.graph.node? id = some n) (hu : n.body = .device unit) (inlet : Nat) (message : Message) :
    (e.received id unit inlet message).Holds x P :=
  holds_reactQuietly (e := e.record (.received id inlet message)) h hn hu
    (hP.receive inlet message _)

theorem holds_of_move (hP : Lasting P) (hm : Move own e e') (h : e.Holds x P) : e'.Holds x P := by
  cases hm with
  | ripple hr =>
    cases hr with
    | report | collect => exact h
    | defer inlet message hn hu _ => exact holds_of_bodies h rfl fun _ => rfl
    | receive inlet message hn hu _ => exact holds_received hP h hn hu inlet message
  | fall | pool => exact h
  | emit outlet message hn hu => exact holds_reactQuietly h hn hu (hP.emit outlet message _)
  | take _ hnext =>
    obtain ⟨n, rest, -, -, rfl⟩ := nextPending?_eq_some hnext
    exact holds_of_bodies h rfl fun _ => rfl
  | compute _ hn hu hp =>
    refine holds_of_modifyNode h rfl ?_
    rintro n' hn' rfl
    cases hn.symm.trans hn'
    obtain ⟨u, hu', hunit⟩ := h _ hn
    cases hu.symm.trans hu'
    exact ⟨_, rfl, hP.process hunit hp⟩
  | receive inlet message _ hn hu => exact holds_received hP h hn hu inlet message
  | calm => exact holds_of_bodies h rfl fun _ => rfl

theorem holds_of_moves (hP : Lasting P) (hm : Moves own e e') (h : e.Holds x P) : e'.Holds x P :=
  hm.keeps (P := fun e => e.Holds x P) (fun _ _ => holds_of_move hP) h

theorem holds_of_played (hP : Lasting P) {input samples : Samples} {outLength : Nat}
    (hp : process input outLength e = .ok samples e') (h : e.Holds x P) : e'.Holds x P := by
  obtain ⟨drained, plan, planned, ended, hdrain, hplan, hplay, rfl⟩ := process_eq_ok hp
  have hdrained := holds_of_moves hP (moves_drain (fun _ => True) hdrain) h
  have hplanned := holds_of_nodes hdrained (graph_compile hplan).1
  have hended := holds_of_moves hP (moves_play hplay) hplanned
  exact hended

end Moves

/-! ## Commands -/

/-- What a command does to the streams and to the units. -/
inductive Rewires (e e' : Engine U) : Prop
  /-- Streams stay as they are, nobody is told anything, and units do no more than work. -/
  | stays (size : e'.graph.nodes.size = e.graph.nodes.size)
    (streams : e'.graph.streamsInto = e.graph.streamsInto)
    (notices : e'.journal.notices = e.journal.notices)
    (holds : ∀ {x : UnitId} {P : U → Prop}, Lasting P → e.Holds x P → e'.Holds x P)
  /-- The graph is edited, and the notices that are given on the way are recorded. -/
  | edited {g : Graph U} {news : List Notice} (informs : e.graph.Informs news g)
    (graph : e'.graph = { g with notices := #[] })
    (notices : e'.journal.notices = e.journal.notices ++ news)

theorem informs_of_edited {made : Body U → Prop} {g g' : Graph U} (hf : g.Fronted) (hg : g.Sound)
    (h : Edited made g g') : ∃ news, g.Informs news g' := by
  cases h with
  | added _ hadd => exact ⟨[], Edit.informs_add hf hg hadd⟩
  | connected hconnect => exact Edit.informs_connect hg.wired hconnect
  | disconnected hdisconnect => exact Edit.informs_disconnect hg.wired hdisconnect

/-- The notices of an edit are recorded if none was under way before it. -/
theorem rewires_of_informs (he : e.graph.notices = #[]) {g : Graph U} {news : List Notice}
    (h : e.graph.Informs news g) {queue : Queue} : Rewires e { e.withGraph g with queue } := by
  refine .edited h rfl ?_
  show (e.withGraph g).journal.notices = _
  rw [notices_withGraph, h.notices, he]
  rfl

theorem rewires_of_deed (hd : Deed command e e') (hs : e.graph.Sound) (hf : e.graph.Fronted)
    (he : e.graph.notices = #[]) : Rewires e e' := by
  cases hd with
  | idle | scheduled | cancelled | sent | taken => exact .stays rfl rfl rfl fun _ h => h
  | unheard => exact .stays rfl rfl (untold_record e rfl).journal fun _ h => h
  | listened => exact .stays rfl (Graph.streamsInto_congr rfl fun _ _ => rfl) rfl fun _ h => h
  | declined => exact rewires_of_informs he (.refl _)
  | edited hedit =>
    obtain ⟨news, hinforms⟩ := informs_of_edited hf hs hedit
    exact rewires_of_informs he hinforms
  | removed hremove =>
    obtain ⟨news, hinforms⟩ := Edit.informs_remove hs hremove
    exact rewires_of_informs he hinforms
  | planned hplan =>
    obtain ⟨g, hg, rfl⟩ := compile_eq_ok.1 hplan
    have hshape := Graph.sameShape_compile hg
    exact .stays hshape.size hshape.streamsInto rfl fun _ h => holds_of_nodes h (graph_compile hplan).1
  | played _ hp =>
    have hshape := sameShape_process hp
    exact .stays hshape.size hshape.streamsInto (untold_of_played hp).journal
      fun hP h => holds_of_played hP hp h

theorem rewires_of_after {settings : Settings} (h : Reachable settings e) {c : Command U}
    (hafter : e.after c = some e') : Rewires e e' :=
  rewires_of_deed (deed_of_after hafter) (kept_of_reachable .any h).sound (fronted_of_reachable h)
    (pending_of_reachable h)

namespace Rewires

variable (h : Rewires e e')
include h

theorem size : e.graph.nodes.size ≤ e'.graph.nodes.size := by
  cases h with
  | stays size => exact size.ge
  | edited informs graph => exact graph ▸ informs.size

theorem exists_news : ∃ news, e'.journal.notices = e.journal.notices ++ news ∧
    ∀ x, e'.graph.streamsInto x = streamsHeard x (e.graph.streamsInto x) news := by
  cases h with
  | stays _ streams notices =>
    exact ⟨[], by rw [notices, List.append_nil], fun x => by rw [streams, streamsHeard_nil]⟩
  | @edited g news informs graph notices =>
    refine ⟨news, notices, fun x => ?_⟩
    rw [graph, ← informs.streams]
    rw [Graph.streamsInto_withNotices]

/-- What a unit makes of the number of its streams it makes of the new one, too. -/
theorem holds {P : (Nat → Nat) → U → Prop} (hlast : ∀ known, Lasting (P known))
    (hrewired : ∀ known u inlet counts, P known u →
      P (streamsAt counts) (Device.rewired u inlet counts))
    (hx : x.index < e.graph.nodes.size) (he : e.Holds x (P (e.graph.streamsInto x))) :
    e'.Holds x (P (e'.graph.streamsInto x)) := by
  cases h with
  | stays _ streams _ holds =>
    rw [streams]
    exact holds (hlast _) he
  | @edited g news informs graph _ =>
    have hstreams : e'.graph.streamsInto x = streamsHeard x (e.graph.streamsInto x) news := by
      rw [graph, ← informs.streams]
      rw [Graph.streamsInto_withNotices]
    intro n' hn'
    rw [graph] at hn'
    obtain ⟨n, hn, hbody⟩ := informs.body hn' hx
    obtain ⟨u, hu, hknown⟩ := he n hn
    obtain ⟨v, hv, hheard⟩ := Body.exists_informed hrewired hknown x news
    rw [hbody, hu, hstreams]
    exact ⟨v, hv, hheard⟩

end Rewires

/-! ## Runs -/

variable {settings : Settings}

/-- Whatever commands have led to an engine, what a node was told last is how many streams arrive at
each of its inlets, and at a node that was told nothing there are none. -/
theorem streamsHeard_of_reachable (h : Reachable settings e) (x : UnitId) :
    e.graph.streamsInto x = streamsHeard x (fun _ => 0) e.journal.notices := by
  induction h with
  | @start e hnew =>
    have hjournal : e.journal = #[] := by
      obtain ⟨_, -, hnew⟩ := bind_eq_ok.1 hnew
      obtain ⟨_, -, hnew⟩ := bind_eq_ok.1 hnew
      obtain ⟨_, -, hnew⟩ := bind_eq_ok.1 hnew
      cases hnew
      rfl
    rw [hjournal, graph_of_new hnew]
    rfl
  | step hreach hafter ih =>
    obtain ⟨news, hnotices, hstreams⟩ := (rewires_of_after hreach hafter).exists_news
    rw [hstreams, ih, hnotices, streamsHeard_append]

/-- Notices stay in the journal. -/
theorem notices_of_leads (h : Leads e e') (hreach : Reachable settings e) :
    ∃ news, e'.journal.notices = e.journal.notices ++ news := by
  induction h with
  | refl => exact ⟨[], (List.append_nil _).symm⟩
  | tail hleads hafter ih =>
    obtain ⟨news, hnews⟩ := ih
    obtain ⟨c, hafter⟩ := hafter
    obtain ⟨news', hnews', -⟩ := (rewires_of_after (Leads.reachable hleads hreach) hafter).exists_news
    exact ⟨news ++ news', by rw [hnews', hnews, List.append_assoc]⟩

/-- A node that has ever had a stream has been told of one. -/
theorem exists_notice_of_stream (hreach : Reachable settings e) (h : Leads e e') {i : Nat}
    (hstream : e.graph.streamSources x i ≠ []) :
    ∃ notice, lastNotice? x e'.journal.notices = some notice := by
  have hpos := Graph.streamsInto_pos_iff.2 hstream
  rw [streamsHeard_of_reachable hreach] at hpos
  obtain ⟨notice, hlast⟩ := exists_lastNotice? hpos.ne'
  obtain ⟨news, hnews⟩ := notices_of_leads h hreach
  rw [hnews, lastNotice?_append, hlast]
  cases lastNotice? x news with
  | none => exact ⟨notice, rfl⟩
  | some later => exact ⟨later, rfl⟩

/-- A run in which a unit has been added. -/
def Houses (settings : Settings) (unit : U) (x : UnitId) (e : Engine U) : Prop :=
  ∃ owner start added, Reachable settings start ∧
    perform (.addUnit owner unit) start = .ok (.added x) added ∧ Leads added e

theorem Houses.reachable {unit : U} (h : Houses settings unit x e) : Reachable settings e := by
  obtain ⟨owner, start, added, hreach, hadd, hleads⟩ := h
  exact Leads.reachable hleads (hreach.step (by rw [after, hadd]))

/-- No streams arrive at a unit that has just been added. -/
theorem streamsInto_of_added {owner : Option UnitId} {unit : U} (h : Reachable settings e)
    (hadd : perform (.addUnit owner unit) e = .ok (.added x) e') (i : Nat) :
    e'.graph.streamsInto x i = 0 := by
  obtain ⟨g, hg, rfl⟩ := graph_of_addUnit hadd
  have hsound := (kept_of_reachable .any h).sound
  have hsame := (Edit.informs_add (fronted_of_reachable h) hsound hg).streams x
  rw [streamsHeard_nil] at hsame
  have hstreams : (e.withGraph g).graph.streamsInto x = g.streamsInto x :=
    congrFun (Graph.streamsInto_withNotices g #[]) x
  rw [hstreams, hsame]
  refine Nat.eq_zero_of_not_pos fun hpos => Graph.streamsInto_pos_iff.1 hpos ?_
  refine List.eq_nil_iff_forall_not_mem.2 fun c hc => ?_
  obtain ⟨hmem, -, rfl, -⟩ := Graph.mem_streamSources.1 hc
  have hlt := Graph.lt_size_of_contains (hsound.wired.dest c hmem)
  exact absurd (Edit.node?_add hg).1 hlt.ne

variable {f : CatalogueUnit → U} {u : CatalogueUnit}

theorem holds_of_houses (hf : Faithful f) (hu : u.Attuned (fun _ => 0) u)
    (h : Houses settings (f u) x e) :
    e.Holds x fun v => ∃ w, v = f w ∧ u.Attuned (e.graph.streamsInto x) w := by
  obtain ⟨owner, start, added, hreach, hadd, hleads⟩ := h
  obtain ⟨g, hg, hgraph⟩ := graph_of_addUnit hadd
  obtain ⟨-, n, hn, hbody, -⟩ := Edit.node?_add hg
  have hadded : Reachable settings added := hreach.step (by rw [after, hadd])
  have hstart : x.index < added.graph.nodes.size ∧
      added.Holds x fun v => ∃ w, v = f w ∧ u.Attuned (added.graph.streamsInto x) w := by
    rw [funext (streamsInto_of_added hreach hadd), hgraph]
    refine ⟨Graph.lt_size_of_node? hn, fun n' hn' => ?_⟩
    cases hn.symm.trans hn'
    exact ⟨f u, hbody, u, rfl, hu⟩
  refine And.right (a := x.index < e.graph.nodes.size) ?_
  induction hleads with
  | refl => exact hstart
  | tail hleads hafter ih =>
    obtain ⟨c, hafter⟩ := hafter
    have hrewires := rewires_of_after (Leads.reachable hleads hadded) hafter
    obtain ⟨hx, hholds⟩ := ih
    refine ⟨hx.trans_le hrewires.size, ?_⟩
    refine hrewires.holds (P := fun known v => ∃ w, v = f w ∧ u.Attuned known w)
      (lasting_attuned hf u) ?_ hx hholds
    rintro known _ inlet counts ⟨w, rfl, hw⟩
    exact ⟨w.rewired counts, hf.rewired .., CatalogueUnit.attuned_rewired hw counts⟩

/-- What comes out when a unit with modes is removed is at rest. -/
theorem attuned_of_removed (hf : Faithful f) (hu : u.Attuned (fun _ => 0) u)
    (h : Houses settings (f u) x e) {body : Body U}
    (hremove : perform (.remove x) e = .ok (.removed body) e') :
    ∃ w, body = .device (f w) ∧ u.Attuned (fun _ => 0) w := by
  obtain ⟨_, g, hremove, ⟨⟩, -⟩ := perform_remove_eq_ok.1 hremove
  obtain ⟨⟨_, -, -, hout⟩, -⟩ := Edit.remove_eq_ok hremove
  obtain ⟨n, news, hn, rfl, hnone⟩ :=
    Edit.uprooted?_eq_some (kept_of_reachable .any h.reachable).sound hout
  obtain ⟨v, hv, w, rfl, hw⟩ := holds_of_houses hf hu h n hn
  obtain ⟨_, hinformed, w, rfl, hw⟩ := Body.exists_informed
    (P := fun known v => ∃ w, v = f w ∧ u.Attuned known w)
    (fun known v inlet counts ⟨w, hv, hw⟩ =>
      ⟨w.rewired counts, hv ▸ hf.rewired .., CatalogueUnit.attuned_rewired hw counts⟩)
    ⟨w, rfl, hw⟩ x news
  rw [funext hnone] at hw
  exact ⟨w, hv ▸ hinformed, hw⟩

/-- Whatever commands have led to an engine, what a node was told last is how many streams arrive at
each of its inlets, if ever one did. Hence a stream operator is in signal mode exactly when both of its
inlets have a stream, and an oscillator exactly when its left inlet has one. That is so if they are
added at rest, as the catalogue makes them, and as they come out when they are removed. -/
theorem modes_match_wiring (hf : Faithful f) :
    (∀ e e' : Engine U, Reachable settings e → Leads e e' →
      ∀ x i, e.graph.streamSources x i ≠ [] → ∃ notice,
        lastNotice? x e'.journal.notices = some notice ∧
        ∀ i, streamsAt notice.counts i = (e'.graph.streamSources x i).length) ∧
    (∀ u x (e : Engine U), u.mode = .scalar → Houses settings (f (.streamOperator u)) x e →
      (∀ n, e.graph.node? x = some n → ∃ v, n.body = .device (f (.streamOperator v)) ∧ v.op = u.op ∧
        (v.mode = .signal ↔ e.graph.streamSources x 0 ≠ [] ∧ e.graph.streamSources x 1 ≠ [])) ∧
      ∀ body e', perform (.remove x) e = .ok (.removed body) e' →
        ∃ v, body = .device (f (.streamOperator v)) ∧ v.mode = .scalar) ∧
    ∀ shape u x (e : Engine U), u.mode = .scalar → Houses settings (f (.oscillator shape u)) x e →
      (∀ n, e.graph.node? x = some n → ∃ v, n.body = .device (f (.oscillator shape v)) ∧
        (v.mode = .signal ↔ e.graph.streamSources x 0 ≠ [])) ∧
      ∀ body e', perform (.remove x) e = .ok (.removed body) e' →
        ∃ v, body = .device (f (.oscillator shape v)) ∧ v.mode = .scalar := by
  refine ⟨fun e e' hreach hleads x i hstream => ?_, fun u x e hrest hhouses => ?_,
    fun shape u x e hrest hhouses => ?_⟩
  · obtain ⟨notice, hlast⟩ := exists_notice_of_stream hreach hleads hstream
    have hheard := streamsHeard_of_reachable (Leads.reachable hleads hreach) x
    rw [streamsHeard, hlast] at hheard
    exact ⟨notice, hlast, fun i => (congrFun hheard i).symm⟩
  · have hu := CatalogueUnit.attuned_streamOperator hrest
    constructor
    · intro n hn
      obtain ⟨_, hbody, w, rfl, hw⟩ := holds_of_houses hf hu hhouses n hn
      cases w with
      | streamOperator v =>
        rw [← Graph.streamsInto_pos_iff, ← Graph.streamsInto_pos_iff]
        exact ⟨v, hbody, hw⟩
      | _ => exact hw.elim
    · intro body e' hremove
      obtain ⟨w, rfl, hw⟩ := attuned_of_removed hf hu hhouses hremove
      cases w with
      | streamOperator v => exact ⟨v, rfl, CatalogueUnit.rests_of_attuned hw⟩
      | _ => exact hw.elim
  · have hu : (CatalogueUnit.oscillator shape u).Attuned (fun _ => 0) (.oscillator shape u) :=
      CatalogueUnit.attuned_oscillator hrest
    constructor
    · intro n hn
      obtain ⟨_, hbody, w, rfl, hw⟩ := holds_of_houses hf hu hhouses n hn
      cases w with
      | oscillator shape' v =>
        obtain ⟨rfl, hmode⟩ := hw
        rw [← Graph.streamsInto_pos_iff]
        exact ⟨v, hbody, hmode⟩
      | _ => exact hw.elim
    · intro body e' hremove
      obtain ⟨w, rfl, hw⟩ := attuned_of_removed hf hu hhouses hremove
      cases w with
      | oscillator shape' v =>
        obtain ⟨rfl, -⟩ := id hw
        exact ⟨v, rfl, CatalogueUnit.rests_of_attuned hw⟩
      | _ => exact hw.elim

theorem leads_of_foldlM {commands : List (Command U)} (h : commands.foldlM after e = some e') :
    Leads e e' := by
  induction commands generalizing e with
  | nil =>
    cases h
    exact .refl
  | cons c commands ih =>
    rw [List.foldlM_cons] at h
    obtain ⟨e₁, hafter, h⟩ := Option.bind_eq_some_iff.1 h
    exact .head ⟨c, hafter⟩ (ih h)

/-- The left operand comes from a unit and the right one out of a subgraph, which is then removed. -/
theorem modes_match_wiring_removed : ∃ (e e' : Engine CatalogueUnit) (v v' : Catalogue.StreamOperator),
    Faithful (id : CatalogueUnit → CatalogueUnit) ∧ Reachable smallBlocks e ∧
    (e.graph.node? ⟨1⟩).map Node.body = some (.device (.streamOperator v)) ∧ v.mode = .signal ∧
    e.after (.remove ⟨2⟩) = some e' ∧
    (e'.graph.node? ⟨1⟩).map Node.body = some (.device (.streamOperator v')) ∧ v'.mode = .scalar ∧
    ∃ notice, lastNotice? ⟨1⟩ e'.journal.notices = some notice ∧ streamsAt notice.counts 1 = 0 := by
  obtain ⟨start, hroomy, hbuilt⟩ := exists_roomy smallBlocks
    [ .addUnit none (CatalogueUnit.streamOperator { op := .add, right := 0 }) ]
    (fun start =>
      match perform (.addUnit none (CatalogueUnit.streamOperator { op := .add, right := 0 })) start with
      | .ok (.added ⟨1⟩) added =>
        Option.any (fun e => e.graph.contains ⟨1⟩ && e.graph.streamSources ⟨1⟩ 0 != [] &&
            e.graph.streamSources ⟨1⟩ 1 != [] &&
            (e.after (.remove ⟨2⟩)).any fun e' => e'.graph.contains ⟨1⟩ &&
              e'.graph.streamSources ⟨1⟩ 1 == [])
          ([.addSubgraph none, .addUnit (some ⟨2⟩) (CatalogueUnit.port ⟨.outlet, true⟩),
            .connect ⟨⟨0⟩, 0, ⟨1⟩, 0⟩, .connect ⟨⟨2⟩, 0, ⟨1⟩, 1⟩].foldlM after added)
      | _ => false) (by cbv)
  split at hbuilt
  · next added hadd =>
    simp only [Option.any_eq_true, Bool.and_eq_true, bne_iff_ne, beq_iff_eq] at hbuilt
    obtain ⟨e, hrun, ⟨⟨hlive, hleft⟩, hright⟩, e', hafter, hlive', hnone⟩ := hbuilt
    obtain ⟨n, hn⟩ := Graph.contains_iff.1 hlive
    obtain ⟨n', hn'⟩ := Graph.contains_iff.1 hlive'
    have hleads := leads_of_foldlM hrun
    have hremoves : Leads e e' := .single ⟨_, hafter⟩
    have hhouses : ∀ e, Leads added e → Houses smallBlocks
        (id (CatalogueUnit.streamOperator { op := .add, right := 0 })) ⟨1⟩ e := fun e hleads =>
      ⟨none, start, added, hroomy.reachable, hadd, hleads⟩
    have hreach := (hhouses e hleads).reachable
    obtain ⟨hknown, hmodes, -⟩ := @modes_match_wiring CatalogueUnit _ smallBlocks id faithful_id
    obtain ⟨v, hv, -, hsignal⟩ := (hmodes _ _ e rfl (hhouses e hleads)).1 n hn
    obtain ⟨v', hv', -, hscalar⟩ := (hmodes _ _ e' rfl (hhouses e' (hleads.trans hremoves))).1 n' hn'
    obtain ⟨notice, hlast, hcounts⟩ := hknown e e' hreach hremoves ⟨1⟩ 0 hleft
    refine ⟨e, e', v, v', faithful_id, hreach, ?_, hsignal.2 ⟨hleft, hright⟩, hafter, ?_, ?_,
      notice, hlast, by rw [hcounts, hnone]; rfl⟩
    · rw [hn, Option.map_some, hv]
      rfl
    · rw [hn', Option.map_some, hv']
      rfl
    · cases hmode : v'.mode with
      | scalar => rfl
      | signal => exact absurd hnone (hscalar.1 hmode).2
  · cases hbuilt

end Engine
end Patchbay
