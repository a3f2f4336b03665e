import Patchbay.Proofs.Catalogue.Links
import Patchbay.Proofs.Engine.Buses
import Patchbay.Proofs.Engine.Hosting
import Patchbay.Proofs.Engine.Performing

/-!
# What links carry

While the steps of a plan run, there is on the bus of a link what its writers have read so far in the
block, in the order of their steps (`Carries`, `carries_of_play`); a reader sends just that
(`link_carries`). The units at the link are those of the catalogue. All others may be of any other
kind, for they cannot get at the bus.
-/

namespace Patchbay

open Catalogue

/-! ## Units at a link -/

/-- Whether a unit of the catalogue writes or reads a link. -/
def CatalogueUnit.IsLink (c : CatalogueUnit) : Prop :=
  (∃ w, c = .linkWriter w) ∨ ∃ r, c = .linkReader r

variable {U : Type} {f : CatalogueUnit → U}

theorem CatalogueUnit.IsLink.isFixed {c : CatalogueUnit} (h : c.IsLink) : c.IsFixed :=
  h.elim .inl fun h => .inr (.inl h)

namespace Graph

/-- Whether all that is registered at a link is a unit of the catalogue. -/
def LinkHosted (g : Graph U) (f : CatalogueUnit → U) (family : LinkFamily) (name : Symbol) : Prop :=
  ∀ x role, g.registration? x = some role → role.seat.key = .link family name → ∃ c, g.Hosts f x c

variable {g g' : Graph U} {x : UnitId} {c : CatalogueUnit} {family : LinkFamily} {name : Symbol}
  {Q : Pool → Pool → Prop}

theorem LinkHosted.writer (h : g.LinkHosted f family name)
    (hx : g.registration? x = some (.emitter family name)) : g.Hosts f x (.linkWriter ⟨family, name⟩) := by
  obtain ⟨c, hc⟩ := h x _ hx rfl
  have hrole := hc.registration?.symm.trans hx
  cases c <;> cases hrole
  exact hc

theorem LinkHosted.reader (h : g.LinkHosted f family name)
    (hx : g.registration? x = some (.collector family name)) :
    g.Hosts f x (.linkReader ⟨family, name⟩) := by
  obtain ⟨c, hc⟩ := h x _ hx rfl
  have hrole := hc.registration?.symm.trans hx
  cases c <;> cases hrole
  exact hc

theorem LinkHosted.works (h : g.LinkHosted f family name) (hw : g.Works (Stays f) Q g') :
    g'.LinkHosted f family name := by
  intro x role hrole hkey
  rw [hw.shape.registration?] at hrole
  cases role with
  | emitter family' name' =>
    cases hkey
    exact ⟨_, (h.writer hrole).works (.inl ⟨_, rfl⟩) hw⟩
  | collector family' name' =>
    cases hkey
    exact ⟨_, (h.reader hrole).works (.inr (.inl ⟨_, rfl⟩)) hw⟩
  | receiver | owner | accessor => cases hkey

theorem LinkHosted.of_nodes (h : g.LinkHosted f family name) (hnodes : g'.nodes = g.nodes) :
    g'.LinkHosted f family name := by
  intro x role hrole hkey
  rw [registration?, node?, hnodes] at hrole
  obtain ⟨c, hc⟩ := h x role hrole hkey
  exact ⟨c, hc.of_nodes hnodes⟩

/-- The emitters of a link that have a step among some, in the order of their steps. -/
def emittersIn (g : Graph U) (family : LinkFamily) (name : Symbol) (steps : List Step) : List UnitId :=
  (steps.filterMap Step.unit?).filter fun x =>
    decide (g.registration? x = some (.emitter family name))

theorem mem_emittersIn {steps : List Step} : x ∈ g.emittersIn family name steps ↔
    .unit x ∈ steps ∧ g.registration? x = some (.emitter family name) := by
  rw [emittersIn, List.mem_filter, decide_eq_true_eq]
  refine and_congr_left fun _ => List.mem_filterMap.trans ⟨?_, fun h => ⟨_, h, rfl⟩⟩
  rintro ⟨s, hs, h⟩
  cases s with
  | unit y =>
    cases h
    exact hs
  | sum => cases h

theorem emittersIn_append (g : Graph U) (family : LinkFamily) (name : Symbol)
    (steps steps' : List Step) : g.emittersIn family name (steps ++ steps') =
      g.emittersIn family name steps ++ g.emittersIn family name steps' := by
  rw [emittersIn, List.filterMap_append, List.filter_append]
  rfl

theorem emittersIn_congr (h : ∀ x, g'.registration? x = g.registration? x) :
    g'.emittersIn family name = g.emittersIn family name := by
  funext steps
  simp only [emittersIn, h]

/-- No emitter has a step behind that of a unit which all emitters precede. -/
theorem emittersIn_eq {pre post : List Step}
    (honce : ((pre ++ .unit x :: post).filterMap Step.unit?).Nodup)
    (hbefore : ∀ w, g.registration? w = some (.emitter family name) → .unit w ∈ pre) :
    g.emittersIn family name (pre ++ .unit x :: post) = g.emittersIn family name pre := by
  rw [emittersIn_append, List.append_right_eq_self, List.eq_nil_iff_forall_not_mem]
  intro w hw
  obtain ⟨hmem, hrole⟩ := mem_emittersIn.1 hw
  rw [List.filterMap_append] at honce
  refine List.disjoint_of_nodup_append honce (a := w) ?_ ?_
  · exact List.mem_filterMap.2 ⟨_, hbefore w hrole, rfl⟩
  · exact List.mem_filterMap.2 ⟨_, hmem, rfl⟩

end Graph

/-- If all units are of the catalogue, so are those at a link. -/
theorem Graph.linkHosted_of_all {g : Graph CatalogueUnit}
    (h : (g.nodes.all fun n => n.all Node.isGenuine) = true) (family : LinkFamily) (name : Symbol) :
    g.LinkHosted id family name := by
  intro x role hrole _
  obtain ⟨n, hn, hrole⟩ := Option.bind_eq_some_iff.1 hrole
  cases hbody : n.body with
  | subgraph =>
    have hgenuine := isGenuine_of_all h hn
    simp [Node.isGenuine, hbody, hrole] at hgenuine
  | device c => exact ⟨c, hosts_of_all h hn hbody⟩

/-! ## The step of a unit at a link -/

variable [Device U]

namespace Engine

variable {e e' : Engine U} {x : UnitId} {c : CatalogueUnit} {slot size : Nat} {ins : Inputs}

/-- That a unit of the catalogue is at the link in a slot. -/
structure AtLink (f : CatalogueUnit → U) (c : CatalogueUnit) (x : UnitId) (slot size : Nat)
    (e : Engine U) : Prop where
  blockSize : e.settings.blockSize = size
  hosts : e.graph.Hosts f x c
  handle : e.graph.handle? x = some (.link slot)

omit [Device U] in
theorem AtLink.works (h : e.AtLink f c x slot size) (hc : c.IsLink) {Q : Pool → Pool → Prop}
    (hw : e.Works (Stays f) Q e') : e'.AtLink f c x slot size where
  blockSize := (congrArg Settings.blockSize hw.settings).trans h.blockSize
  hosts := h.hosts.works hc.isFixed hw.graph
  handle := (hw.graph.shape.handle? x).trans h.handle

/-- A unit at a link does not heed messages. -/
theorem receive_link (hf : Faithful f) (hc : c.IsLink) (inlet : Nat) (message : Message)
    (here : Surroundings) : Device.receive (f c) inlet message here = .done (f c) := by
  rw [hf.receive]
  obtain ⟨w, rfl⟩ | ⟨r, rfl⟩ := hc <;> rfl

/-- What is known of a unit's progress and of its bus is kept in its step if each piece keeps it. -/
theorem sweeps_link (hf : Faithful f) (hc : c.IsLink) {P : Progress → Samples → Prop}
    (hlast : ∀ {p bus}, P p bus → p.last ≤ size)
    (hpiece : ∀ {outs : Outputs} {bus : Samples} {first last : Nat}, P ⟨outs.outlets, first⟩ bus →
      outs.bus = some bus → first ≤ last → last ≤ size → ∃ outs' bus',
        CatalogueUnit.process c ins outs first last = .ok (c, outs') ∧ outs'.bus = some bus' ∧
          P ⟨outs'.outlets, last⟩ bus') :
    Sweeps (fun _ => ins) x size (fun _ _ => False)
      (fun p e => e.AtLink f c x slot size ∧ ∃ bus, e.bus? slot = some bus ∧ P p bus) where
  blockSize h := h.1.blockSize
  last := by
    rintro p e ⟨-, bus, -, hp⟩
    exact hlast hp
  compute := by
    rintro p e stop ⟨hat, bus, hbus, hp⟩ hle hstop
    obtain ⟨n, hn, hu, -⟩ := hat.hosts
    have hhandle : n.handle = some (.link slot) := by
      have := hat.handle
      rwa [Graph.handle?, hn, Option.bind_some] at this
    have houts : ((e.record (.computed x p.last stop)).outputs n p.outlets).bus = some bus := by
      rw [outputs, hhandle]
      exact hbus
    obtain ⟨outs, bus', hprocess, hbus', hp'⟩ := hpiece hp houts hle hstop
    have hdevice : Device.process (f c) ins
        ((e.record (.computed x p.last stop)).outputs n p.outlets) p.last stop = .ok (f c, outs) := by
      rw [hf.process]
      exact congrArg (Except.map fun r => (f r.1, r.2)) hprocess
    rw [compute_eq, hn]
    dsimp only
    rw [hu]
    dsimp only
    rw [hdevice]
    have hrecord : e.Works (Stays f) Eq (e.record (.computed x p.last stop)) :=
      works_of_graph (law_stays hf) rfl rfl rfl rfl
    have hworks := works_afterCompute (law_stays hf) (e.record (.computed x p.last stop)) x outs hn hu
      ((law_stays hf).process hdevice)
    refine ⟨⟨(hat.works hc hrecord).works hc hworks, bus', ?_, hp'⟩, rfl⟩
    obtain ⟨l, hl, -⟩ := Option.map_eq_some_iff.1 hbus
    show ((writeNamed e.graph.names n.handle outs).links.get? slot).map Link.bus = some bus'
    have hwritten : writeNamed e.graph.names n.handle outs = e.graph.names.setBus slot bus' := by
      simp only [writeNamed, hhandle, hbus']
    rw [hwritten, Names.setBus, Directory.get?_modify, if_pos rfl, hl]
    rfl
  take := by
    rintro p e next e' ⟨hat, bus, hbus, hp⟩ hnext
    have hat' := hat.works hc (works_nextPending? (law_stays hf) hnext)
    obtain ⟨n, rest, -, -, rfl⟩ := nextPending?_eq_some hnext
    exact ⟨hat', bus, hbus, hp⟩
  receive := by
    rintro p e next ⟨hat, bus, hbus, hp⟩
    obtain ⟨n, hn, hu, -⟩ := hat.hosts
    have hsilent : e.answers x (f c) next.inlet next.message = [] := by
      rw [answers, receive_link hf hc]
      rfl
    have hreceived : e.receivePending x next = e.received x (f c) next.inlet next.message := by
      rw [receivePending_eq hn hu, hsilent]
      rfl
    rw [hreceived]
    have hworks := works_received (law_stays hf) e next.inlet next.message hn hu
    refine ⟨⟨hat.works hc hworks, bus, ?_, hp⟩, waiting_congr (mailbox?_received ..)⟩
    rw [bus?, received, names_reactQuietly]
    exact hbus
  calm := by
    rintro p e ⟨hat, bus, hbus, hp⟩
    exact ⟨hat.works hc (works_calm (law_stays hf) e x), bus, hbus, hp⟩

/-- What a unit reads at an inlet when its step comes. -/
def hears (plan : Plan) (e : Engine U) (x : UnitId) (inlet : Nat) : Samples :=
  ((e.inputs (plan.binding x)).inlet inlet).toOption.getD #[]

/-- What a unit reads at an inlet when some steps are run. -/
def heard (plan : Plan) : List Step → Engine U → UnitId → Nat → Samples
  | [], _, _ => fun _ => #[]
  | s :: steps, e, x =>
    if s = .unit x then hears plan e x
    else
      match runStep plan s e with
      | .ok _ e => heard plan steps e x
      | .error .. => fun _ => #[]

section Steps

variable {plan : Plan} {m : Memory}

/-- What a unit reads at an inlet is a block. It is the same before and after the unit has taken its
buffers. -/
theorem inlet_eq_hears (hm : e.graph.pool.Stores size m) {u : U}
    (hfits : e.graph.Fits x u e.graph.pool.size (plan.binding x)) {outlets : Array Samples}
    {pool : Pool} (htake : takeOutlets (plan.binding x) e.graph.pool = .ok (outlets, pool))
    (inlet : Nat) :
    ((e.withPool pool).inputs (plan.binding x)).inlet inlet = .ok (hears plan e x inlet) ∧
      (hears plan e x inlet).size = size := by
  obtain ⟨buffer, hbuffer, hbelow, hnot⟩ := hfits.exists_buffer inlet
  have hhears : hears plan e x inlet = m.read size buffer := by
    have hget : (e.inputs (plan.binding x)).inlet inlet = .ok (m.read size buffer) := by
      show e.graph.pool.get (((plan.binding x).inlets[inlet]?).getD .zero) = _
      rw [hbuffer]
      exact hm.get hbelow
    rw [hears, hget]
    rfl
  rw [hhears]
  exact ⟨inlet_eq hm hfits.apart htake hbuffer hbelow hnot, hm.size_read hbelow⟩

variable (hs : Steady U) (hf : Faithful f) (hm : e.graph.pool.Stores size m)
  (hequips : plan.Equips e.graph x)
include hs hf hm hequips

/-- In its step a writer puts what it reads on the bus. -/
theorem computeBlock_linkWriter {w : LinkWriter} (hat : e.AtLink f (.linkWriter w) x slot size)
    {old : Samples} (hbus : e.bus? slot = some old) (hold : old.size = size) :
    Yields (fun _ _ => False)
      (fun _ e' => e'.bus? slot = some (w.write old (hears plan e x 0)))
      (computeBlock (·.inputs (plan.binding x)) x (plan.binding x) e) := by
  obtain ⟨n, u, hn, hu, -, hfits⟩ := hequips
  obtain ⟨outlets, pool, htake, -⟩ := takeOutlets_spec hm hfits.apart
  obtain ⟨hin, hsize⟩ := inlet_eq_hears hm hfits htake 0
  rw [computeBlock_reads hs.alike x _ htake]
  refine (computeBlock_yields hs hm hfits.apart hn _
    (P := fun _ e' => e'.bus? slot = some (w.write old (hears plan e x 0))) (fun _ _ _ h => h) ?_).mono
    fun _ _ h => h.2
  intro outlets' pool' htake'
  cases htake.symm.trans htake'
  -- as far as the writer has come, what it reads is on the bus
  have hsweeps : Sweeps (fun _ => (e.withPool pool).inputs (plan.binding x)) x size (fun _ _ => False)
      (fun p e' => e'.AtLink f (.linkWriter w) x slot size ∧ ∃ bus, e'.bus? slot = some bus ∧
        p.last ≤ size ∧ bus = partly (w.write old (hears plan e x 0)) old p.last) := by
    refine sweeps_link hf (.inl ⟨w, rfl⟩) (fun h => h.1) ?_
    rintro outs bus first last ⟨-, rfl⟩ hbus hle hlast
    have hlast' : last ≤ old.size := hlast.trans_eq hold.symm
    exact ⟨_, _, process_linkWriter w hin (hsize.trans hold.symm) hbus hle hlast', rfl, hlast, rfl⟩
  have htaken : e.Works (Stays f) (fun _ _ => True) (e.withPool pool) :=
    works_withPool (law_stays hf).refl e ⟨⟩
  have hat' := hat.works (.inl ⟨w, rfl⟩) htaken
  refine (hsweeps.computeSamples (p := { outlets }) ⟨hat', old, hbus, Nat.zero_le _, ?_⟩ hn).mono ?_
  · exact (partly_zero _ _).symm
  · rintro p e' ⟨⟨-, bus, hbus', -, rfl⟩, hend⟩
    rw [hbus', hend, ← hold, partly_size (w.size_write (hsize.trans hold.symm))]

/-- In its step a reader sends what is on the bus. -/
theorem computeBlock_linkReader {r : LinkReader} (hat : e.AtLink f (.linkReader r) x slot size)
    {bus : Samples} (hbus : e.bus? slot = some bus) (hsize : bus.size = size) :
    Yields (fun _ _ => False) (fun outs e' => outs[0]? = some bus ∧ e'.bus? slot = some bus)
      (computeBlock (·.inputs (plan.binding x)) x (plan.binding x) e) := by
  obtain ⟨n, u, hn, hu, -, hfits⟩ := hequips
  obtain ⟨outlets, pool, htake, -, houtlets, -⟩ := takeOutlets_spec hm hfits.apart
  rw [computeBlock_reads hs.alike x _ htake]
  refine (computeBlock_yields hs hm hfits.apart hn _
    (P := fun outs e' => outs[0]? = some bus ∧ e'.bus? slot = some bus) (fun _ _ _ h => h) ?_).mono
    fun _ _ h => h.2
  intro outlets' pool' htake'
  cases htake.symm.trans htake'
  -- the reader has a buffer for its outlet
  obtain ⟨old, hold, hlen⟩ : ∃ old : Samples, outlets[0]? = some old ∧ old.size = size := by
    obtain ⟨n', hn', hu', -⟩ := hat.hosts
    cases hn.symm.trans hn'
    cases hu.symm.trans hu'
    have hports : 0 < (e.graph.ports x).streamOutlets := by
      rw [hat.hosts.ports]
      exact Nat.one_pos
    obtain ⟨i, howns⟩ := hfits.pooled 0 hports (hf.source _ 0)
    exact houtlets 0 _ howns
  -- as far as the reader has come, it has sent what is on the bus
  have hsweeps : Sweeps (fun _ => (e.withPool pool).inputs (plan.binding x)) x size (fun _ _ => False)
      (fun p e' => e'.AtLink f (.linkReader r) x slot size ∧ ∃ bus', e'.bus? slot = some bus' ∧
        p.last ≤ size ∧ bus' = bus ∧ p.outlets[0]? = some (partly bus old p.last)) := by
    refine sweeps_link hf (.inr ⟨r, rfl⟩) (fun h => h.1) ?_
    rintro outs _ first last ⟨-, rfl, hout⟩ hbus hle hlast
    have hlast' : last ≤ old.size := hlast.trans_eq hlen.symm
    refine ⟨_, _, process_linkReader r hbus (hsize.trans hlen.symm) hout hle hlast', hbus, hlast, rfl, ?_⟩
    exact Array.getElem?_setIfInBounds_self_of_lt (Array.getElem?_eq_some_iff.1 hout).1
  have htaken : e.Works (Stays f) (fun _ _ => True) (e.withPool pool) :=
    works_withPool (law_stays hf).refl e ⟨⟩
  have hat' := hat.works (.inr ⟨r, rfl⟩) htaken
  refine (hsweeps.computeSamples (p := { outlets })
    ⟨hat', bus, hbus, Nat.zero_le _, rfl, ?_⟩ hn).mono ?_
  · rw [partly_zero]
    exact hold
  · rintro p e' ⟨⟨-, bus', hbus', -, rfl, hout⟩, hend⟩
    rw [hout, hend, ← hlen, partly_size (hsize.trans hlen.symm)]
    exact ⟨rfl, hbus'⟩

end Steps

/-! ## What is on the bus -/

/-- That a plan is being played, and so many signals have come to the bus of a link. -/
structure Carries (plan : Plan) (f : CatalogueUnit → U) (family : LinkFamily) (name : Symbol)
    (slot size : Nat) (signals : List Samples) (e : Engine U) : Prop where
  playable : plan.Playable e.graph
  equips : ∀ x, .unit x ∈ plan.steps.toList → plan.Equips e.graph x
  stores : ∃ m, e.graph.pool.Stores size m
  blockSize : e.settings.blockSize = size
  registered : e.graph.Registered
  bused : e.graph.Bused size
  found : e.graph.names.links.find? (family, name) = some slot
  hosted : e.graph.LinkHosted f family name
  bus : e.bus? slot = some (family.carried size signals)

section Plays

variable {plan : Plan} {family : LinkFamily} {name : Symbol} {signals : List Samples}

/-- What is on the bus is a block. -/
theorem Carries.size_carried (h : e.Carries plan f family name slot size signals) :
    (family.carried size signals).size = size := by
  obtain ⟨l, hl, hbus⟩ := Option.map_eq_some_iff.1 h.bus
  rw [← hbus]
  exact h.bused.names.buses slot l hl

/-- A unit that is registered at the link has the handle of its slot. -/
theorem Carries.handle (h : e.Carries plan f family name slot size signals) {role : Registration}
    (hrole : e.graph.registration? x = some role) (hkey : role.seat.key = .link family name) :
    e.graph.handle? x = some (.link slot) := by
  rw [h.registered.handle hrole]
  cases role with
  | emitter | collector =>
    cases hkey
    exact congrArg (Option.map Handle.link) h.found
  | receiver | owner | accessor => cases hkey

variable (hs : Steady U) (hb : KeepsBuses U) (hf : Faithful f)
include hs hb hf

/-- A step puts on the bus what it has read, if it is that of a writer at the link, and leaves the bus
as it is otherwise. -/
theorem carries_of_runStep (h : e.Carries plan f family name slot size signals) {s : Step}
    (hmem : s ∈ plan.steps.toList) (hrun : runStep plan s e = .ok ⟨⟩ e') :
    e'.Carries plan f family name slot size
      (signals ++ (e.graph.emittersIn family name [s]).map fun w => hears plan e w 0) := by
  obtain ⟨m, hm⟩ := h.stores
  obtain ⟨hworks, hm'⟩ := (runStep_spec hs h.playable hm hmem).of_ok hrun
  have hstays := runStep_works (law_stays hf) plan s hrun
  have hmoves := moves_runStep hrun
  -- all but the bus is as it was
  have hnext : ∀ {signals' : List Samples}, e'.bus? slot = some (family.carried size signals') →
      e'.Carries plan f family name slot size signals' := fun hbus =>
    { playable := h.playable.works hworks.graph
      equips := fun x hx => (h.equips x hx).works hworks.graph
      stores := ⟨_, hm'⟩
      blockSize := (congrArg Settings.blockSize hworks.settings).trans h.blockSize
      registered := hworks.graph.shape.registered hworks.graph.names h.registered
      bused := bused_of_moves hb hs.alike hmoves h.bused
      found := (hworks.graph.names.find?_link (family, name)).trans h.found
      hosted := h.hosted.works hstays.graph
      bus := hbus }
  apply hnext
  cases s with
  | sum left right out =>
    have hemitters : e.graph.emittersIn family name [.sum left right out] = [] := rfl
    rw [hemitters, List.map_nil, List.append_nil, ← h.bus]
    exact bus?_of_moves hs.alike hmoves fun _ h => (by cases h)
  | unit x =>
    obtain ⟨outs, e₁, hblock, hrun⟩ := run_bind_eq_ok.1 hrun
    cases hrun
    by_cases hwriter : e.graph.registration? x = some (.emitter family name)
    · have hat : e.AtLink f (.linkWriter ⟨family, name⟩) x slot size :=
        ⟨h.blockSize, h.hosted.writer hwriter, h.handle hwriter rfl⟩
      have hemitters : e.graph.emittersIn family name [.unit x] = [x] := by
        simp [Graph.emittersIn, Step.unit?, hwriter]
      rw [hemitters, List.map_singleton, LinkFamily.carried_append family name]
      exact (computeBlock_linkWriter hs hf hm (h.equips x hmem) hat h.bus h.size_carried).of_ok hblock
    · have hemitters : e.graph.emittersIn family name [.unit x] = [] := by
        simp [Graph.emittersIn, Step.unit?, hwriter]
      rw [hemitters, List.map_nil, List.append_nil]
      by_cases hreader : e.graph.registration? x = some (.collector family name)
      · have hat : e.AtLink f (.linkReader ⟨family, name⟩) x slot size :=
          ⟨h.blockSize, h.hosted.reader hreader, h.handle hreader rfl⟩
        exact ((computeBlock_linkReader hs hf hm (h.equips x hmem) hat h.bus h.size_carried).of_ok
          hblock).2
      · rw [← h.bus]
        apply bus?_of_moves hs.alike hmoves
        rintro _ ⟨⟩ hhandle
        obtain ⟨role, hrole, hkey⟩ := h.bused.role_of_handle h.registered h.found hhandle
        cases role <;> cases hkey
        · exact hwriter hrole
        · exact hreader hrole

omit hs hb hf in
/-- What a unit reads in its step is settled by the steps before. -/
theorem heard_cons_of_ne {s : Step} {steps : List Step} (hrun : runStep plan s e = .ok ⟨⟩ e')
    (hne : s ≠ .unit x) : heard plan (s :: steps) e x = heard plan steps e' x := by
  rw [heard, if_neg hne, hrun]

/-- After some steps there is on the bus what the writers among them have read, in their order. -/
theorem carries_of_play (h : e.Carries plan f family name slot size signals) {pre post : List Step}
    (hsub : ∀ s ∈ pre, s ∈ plan.steps.toList)
    (honce : ((pre ++ post).filterMap Step.unit?).Nodup) (hrun : play plan pre e = .ok ⟨⟩ e') :
    e'.Carries plan f family name slot size
      (signals ++ (e.graph.emittersIn family name pre).map fun w => heard plan (pre ++ post) e w 0) := by
  induction pre generalizing e signals with
  | nil =>
    cases hrun
    simpa [Graph.emittersIn] using h
  | cons s pre ih =>
    rw [play, List.forM_cons] at hrun
    obtain ⟨_, e₁, hstep, hrun⟩ := run_bind_eq_ok.1 hrun
    have h₁ := carries_of_runStep hs hb hf h (hsub s List.mem_cons_self) hstep
    have hroles := (runStep_works hs.alike plan s hstep).graph.shape.registration?
    have htail : ((pre ++ post).filterMap Step.unit?).Nodup :=
      honce.sublist ((List.sublist_cons_self s (pre ++ post)).filterMap _)
    have h₂ := ih h₁ (fun s hs => hsub s (List.mem_cons_of_mem _ hs)) htail hrun
    rw [List.append_assoc] at h₂
    convert h₂ using 2
    -- the first step has read its own, and the others have theirs still to come
    have hsplit : e.graph.emittersIn family name (s :: pre) =
        e.graph.emittersIn family name [s] ++ e₁.graph.emittersIn family name pre := by
      rw [Graph.emittersIn_congr hroles]
      exact e.graph.emittersIn_append family name [s] pre
    rw [hsplit, List.map_append]
    congr 1
    · refine List.map_congr_left fun w hw => ?_
      have hs : s = .unit w := by
        obtain ⟨hw, -⟩ := Graph.mem_emittersIn.1 hw
        exact (List.mem_singleton.1 hw).symm
      rw [List.cons_append, heard, if_pos hs]
    · refine List.map_congr_left fun w hw => ?_
      have hne : s ≠ .unit w := by
        rintro rfl
        have hnodup : (w :: (pre ++ post).filterMap Step.unit?).Nodup := honce
        apply (List.nodup_cons.1 hnodup).1
        rw [List.filterMap_append]
        exact List.mem_append_left _ (List.mem_filter.1 hw).1
      rw [List.cons_append, heard_cons_of_ne hstep hne]

end Plays

/-! ## Blocks -/

section Blocks

variable {family : LinkFamily} {name : Symbol} {settings : Settings}

omit [Device U] in
/-- A block starts in silence, whatever was on the bus before. -/
theorem bus?_openBlock (h : e.graph.Bused size) (hg : e.graph.Registered)
    (hslot : e.graph.names.links.find? (family, name) = some slot) (input : Samples) :
    (openBlock input e).bus? slot = some (silence size) := by
  obtain ⟨l, hl⟩ := Option.isSome_iff_exists.1 (hg.names.links.isSome_of_find? hslot)
  rw [bus?, openBlock, Names.clearBuses, Directory.get?_mapValues, hl, Option.map_some,
    Option.map_some, h.names.buses slot l hl]

variable (hs : Steady U) (hb : KeepsBuses U) (hf : Faithful f)
include hs hb hf

/-- When the steps of a plan are about to be run, no signal has come to the bus yet. -/
theorem carries_of_starts (h : Roomy settings e) {input : Samples} {drained : Engine U}
    (hdrain : drain e.blockEnd roundLimit (openBlock input e) = .ok ⟨⟩ drained) {plan : Plan}
    {g : Graph U} (hstarts : Starts e drained plan g) (hhosted : e.graph.LinkHosted f family name)
    (hslot : e.graph.names.links.find? (family, name) = some slot) :
    Carries plan f family name slot settings.blockSize [] { drained with graph := g } := by
  have hsound := (kept_of_reachable hs.alike h.reachable).sound
  have hbused := bused_of_reachable hb hs.alike h.reachable
  have hmoves := moves_drain (fun _ => False) hdrain
  have hopened : (openBlock input e).graph.Bused settings.blockSize :=
    ⟨hbused.names.follows (Names.follows_clearBuses _), hbused.handles⟩
  have hdrained := bused_of_moves hb hs.alike hmoves hopened
  have hworks : e.graph.Works (Stays f) Eq drained.graph := works_opened (law_stays hf) hdrain
  obtain ⟨m, hm⟩ := hstarts.filled
  exact {
    playable := hstarts.planned.playable hstarts.room
    equips := fun x hx => hstarts.planned.equips hstarts.room hx
    stores := ⟨m, hstarts.blockSize.trans (h.blockSize hs) ▸ hm⟩
    blockSize := by
      have hsettings := (works_of_moves .any hmoves).settings
      have hsame : e.settings = settings := settings_of_reachable h.reachable
      exact congrArg Settings.blockSize (hsettings.trans hsame)
    registered := hstarts.kept.sound.registered
    bused := Graph.Bused.of_nodes hdrained hstarts.nodes (hstarts.names ▸ hdrained.names)
    found := by
      rw [hstarts.names, hworks.names.find?_link, hslot]
    hosted := (hhosted.works hworks).of_nodes hstarts.nodes
    bus := by
      rw [LinkFamily.carried_nil, ← bus?_openBlock hbused hsound.registered hslot input,
        ← bus?_of_moves hs.alike hmoves fun _ h => h.elim, bus?, bus?]
      exact congrArg (fun n : Names => (n.links.get? slot).map Link.bus) hstarts.names }

/-- In a block every unit at a link has one step, and a reader sends what the writers before it have
read in theirs, in their order: the sum, or the last. No trace is left of other blocks or links. -/
theorem link_carries (h : Roomy settings e) (hroom : e.graph.HasRoom) {input : Samples}
    {drained : Engine U}
    (hdrain : drain e.blockEnd roundLimit (openBlock input e) = .ok ⟨⟩ drained)
    (hhosted : e.graph.LinkHosted f family name) :
    ∃ plan started, compile drained = .ok plan started ∧
      (∀ w, w ∈ e.graph.emittersIn family name plan.steps.toList ↔
        e.graph.registration? w = some (.emitter family name)) ∧
      (e.graph.emittersIn family name plan.steps.toList).Nodup ∧
      (∀ x, e.graph.registration? x = some (.collector family name) → .unit x ∈ plan.steps.toList) ∧
      ∀ {pre post : List Step} {x : UnitId} {reached : Engine U},
        plan.steps.toList = pre ++ .unit x :: post → play plan pre started = .ok ⟨⟩ reached →
        e.graph.registration? x = some (.collector family name) →
        (∃ outs ended bus,
          computeBlock (·.inputs (plan.binding x)) x (plan.binding x) reached = .ok outs ended ∧
          outs[0]? = some bus ∧ bus.size = settings.blockSize ∧
          bus = family.carried settings.blockSize ((e.graph.emittersIn family name pre).map fun w =>
            heard plan plan.steps.toList started w 0)) ∧
        ((∀ w, e.graph.registration? w = some (.emitter family name) → .unit w ∈ pre) →
          e.graph.emittersIn family name pre =
            e.graph.emittersIn family name plan.steps.toList) := by
  have hkept := kept_of_reachable hs.alike h.reachable
  obtain ⟨plan, g, hstarts⟩ := exists_starts hs hkept hroom (h.filled hs) hdrain
  have hplay := hstarts.planned.playable hstarts.room
  -- the graph that is played has the units and the roles that were there when the block began
  have hworks : e.graph.Works (Stays f) Eq drained.graph := works_opened (law_stays hf) hdrain
  have hhosted' : g.LinkHosted f family name := (hhosted.works hworks).of_nodes hstarts.nodes
  have hroles : ∀ x, g.registration? x = e.graph.registration? x := fun x => by
    rw [← hworks.shape.registration?, Graph.registration?, Graph.registration?, Graph.node?,
      Graph.node?, hstarts.nodes]
  -- so each unit at the link has a step
  have hsteps : ∀ {x c}, g.Hosts f x c → c.computes = true → .unit x ∈ plan.steps.toList := by
    rintro x c ⟨n, hn, hu, -⟩ hc
    rw [← Plan.mem_units, hstarts.planned.mem_units]
    refine ⟨n, hn, ?_⟩
    rw [hu]
    exact (hf.computes c).trans hc
  refine ⟨plan, _, hstarts.compiles, fun w => ?_, ?_, fun x hx => ?_, ?_⟩
  · refine Graph.mem_emittersIn.trans ⟨fun h => h.2, fun hw => ⟨?_, hw⟩⟩
    exact hsteps (hhosted'.writer ((hroles w).trans hw)) rfl
  · exact hplay.once.filter _
  · exact hsteps (hhosted'.reader ((hroles x).trans hx)) rfl
  rintro pre post x reached hsplit hrun hx
  have honce : ((pre ++ .unit x :: post).filterMap Step.unit?).Nodup := hsplit ▸ hplay.once
  refine ⟨?_, fun hbefore => ?_⟩
  · obtain ⟨slot, hslot⟩ : ∃ slot, e.graph.names.links.find? (family, name) = some slot := by
      have hseated : x ∈ e.graph.names.seated (.collector family name) := by
        rw [hkept.sound.registered.seated, hx]
        rfl
      exact Option.isSome_iff_exists.1 (Names.link_isSome (.inr (List.ne_nil_of_mem hseated)))
    have hstart := carries_of_starts hs hb hf h hdrain hstarts hhosted hslot
    have hsub : ∀ s ∈ pre, s ∈ plan.steps.toList := fun s hs => by
      rw [hsplit]
      exact List.mem_append_left _ hs
    have hreached := carries_of_play hs hb hf hstart hsub honce hrun
    rw [List.nil_append, ← hsplit, Graph.emittersIn_congr hroles] at hreached
    have hshape := (play_works hs.alike plan pre hrun).graph.shape
    have hrole : reached.graph.registration? x = some (.collector family name) :=
      (hshape.registration? x).trans ((hroles x).trans hx)
    have hmem : .unit x ∈ plan.steps.toList := by simp [hsplit]
    obtain ⟨m, hm⟩ := hreached.stores
    obtain ⟨outs, ended, hblock, hout, -⟩ :=
      (computeBlock_linkReader hs hf hm (hreached.equips x hmem)
        ⟨hreached.blockSize, hreached.hosted.reader hrole, hreached.handle hrole rfl⟩ hreached.bus
        hreached.size_carried).exists_ok
    exact ⟨outs, ended, _, hblock, hout, hreached.size_carried, rfl⟩
  · rw [hsplit, Graph.emittersIn_eq honce hbefore]

end Blocks

/-- Two constants meet at a link, whose reader takes their sum to the host. -/
theorem link_carries_mix : let mix := Symbol.ofString "mix"
    ∃ e drained : Engine CatalogueUnit, Roomy smallBlocks e ∧ e.graph.HasRoom ∧
      drain e.blockEnd roundLimit (openBlock #[] e) = .ok ⟨⟩ drained ∧
      e.graph.LinkHosted id .throw mix ∧ ∃ plan started, compile drained = .ok plan started ∧
      (∀ w, w ∈ e.graph.emittersIn .throw mix plan.steps.toList ↔
        e.graph.registration? w = some (.emitter .throw mix)) ∧
      (e.graph.emittersIn .throw mix plan.steps.toList).Nodup ∧
      (∀ x, e.graph.registration? x = some (.collector .throw mix) → .unit x ∈ plan.steps.toList) ∧
      ∀ {pre post : List Step} {x : UnitId} {reached : Engine CatalogueUnit},
        plan.steps.toList = pre ++ .unit x :: post → play plan pre started = .ok ⟨⟩ reached →
        e.graph.registration? x = some (.collector .throw mix) →
        (∃ outs ended bus,
          computeBlock (·.inputs (plan.binding x)) x (plan.binding x) reached = .ok outs ended ∧
          outs[0]? = some bus ∧ bus.size = 8 ∧
          bus = LinkFamily.carried .throw 8 ((e.graph.emittersIn .throw mix pre).map fun w =>
            heard plan plan.steps.toList started w 0)) ∧
        ((∀ w, e.graph.registration? w = some (.emitter .throw mix) → .unit w ∈ pre) →
          e.graph.emittersIn .throw mix pre = e.graph.emittersIn .throw mix plan.steps.toList) := by
  intro mix
  obtain ⟨e, hroomy, h⟩ := exists_roomy smallBlocks
    [ .addUnit none (CatalogueUnit.constant ⟨1⟩), .addUnit none (.constant ⟨2⟩),
      .addUnit none (.linkWriter ⟨.throw, mix⟩), .addUnit none (.linkWriter ⟨.throw, mix⟩),
      .addUnit none (.linkReader ⟨.throw, mix⟩), .addUnit none (.hostOutput ⟨1⟩),
      .connect ⟨⟨0⟩, 0, ⟨2⟩, 0⟩, .connect ⟨⟨1⟩, 0, ⟨3⟩, 0⟩, .connect ⟨⟨4⟩, 0, ⟨5⟩, 0⟩ ]
    (fun e => decide e.graph.HasRoom && (e.graph.nodes.all fun n => n.all Node.isGenuine) &&
      e.queue.events.isEmpty && e.graph.connections.length == 3) (by cbv)
  simp only [Bool.and_eq_true, decide_eq_true_eq, List.isEmpty_iff] at h
  obtain ⟨⟨⟨hroom, hnodes⟩, hqueue⟩, -⟩ := h
  have hhosted : e.graph.LinkHosted id .throw mix := Graph.linkHosted_of_all hnodes .throw mix
  have hdrain : drain e.blockEnd roundLimit (openBlock #[] e) = .ok ⟨⟩ (openBlock #[] e) :=
    drain_of_events_eq_nil e.blockEnd hqueue
  exact ⟨e, _, hroomy, hroom, hdrain, hhosted,
    link_carries CatalogueUnit.steady CatalogueUnit.keepsBuses faithful_id hroomy hroom hdrain
      hhosted⟩

end Engine
end Patchbay
