import Patchbay.Proofs.Engine.Linking
import Patchbay.Proofs.Engine.Receiving
import Patchbay.Proofs.Engine.Tables

/-!
# What is recorded in a block

The history of a unit that records says what it has heard and been told (`History.beats`). In its step the
unit and its table go through the beats of that step, one after the other (`recorded_of_runStep`). Nothing
else in a block changes them, so they go through the beats of the block as a whole, and in them the unit
hears what it reads at its inlet (`recorded_of_process`).
-/

namespace Patchbay

open Catalogue

/-! ## Histories as beats -/

/-- What a happening is for a unit that hears some samples in a block. -/
def Happening.beat? (heard : Samples) : Happening → Option Beat
  | .computed _ first last => some (.heard (heard.extract first last))
  | .received _ _ message => some (.told message)
  | _ => none

/-- The beats of a unit in a stretch of its history. -/
def History.beats (heard : Samples) (h : History) : List Beat := h.filterMap (·.beat? heard)

theorem History.beats_append (heard : Samples) (h h' : History) :
    History.beats heard (h ++ h') = h.beats heard ++ h'.beats heard := List.filterMap_append

/-- That messages arrive is no beat. -/
theorem History.beats_arrivals (heard : Samples) (x : UnitId) (ps : List Pending) :
    History.beats heard (ps.map (arrival x)) = [] := by
  refine List.filterMap_eq_nil_iff.2 fun a ha => ?_
  obtain ⟨p, -, rfl⟩ := List.mem_map.1 ha
  rfl

variable {U : Type} [Device U] {f : CatalogueUnit → U}

namespace Engine

variable {e e' : Engine U} {x : UnitId} {slot size : Nat} {t : Tape} {plan : Plan} {m : Memory}

/-! ## The step of a unit that records -/

section Pieces

variable (hf : Faithful f)
include hf

/-- A piece that the unit computes is a beat. -/
theorem Taped.compute (h : e.Taped f x slot t) {n : Node U} {unit unit' : U}
    (hn : e.graph.node? x = some n) (hu : n.body = .device unit) {ins : Inputs} {heard : Samples}
    {outlets : Array Samples} {outs : Outputs} {first last : Nat} (hin : ins.inlet 0 = .ok heard)
    (hle : first ≤ last) (hlast : last ≤ heard.size)
    (hp : Device.process unit ins (e.outputs n outlets) first last = .ok (unit', outs)) :
    (e.afterCompute x n.handle unit' outs).Taped f x slot
      (t.follow (.heard (heard.extract first last))) := by
  have hw := (works_afterCompute (law_leavesOn hf) e x outs hn hu ((law_leavesOn hf).process hp)).graph
  obtain ⟨n', hn', hu', -⟩ := h.writer
  cases hn.symm.trans hn'
  cases hu.symm.trans hu'
  obtain ⟨store, hstore, hsamples⟩ := Option.map_eq_some_iff.1 h.table
  have hhandle : n.handle = some (.store slot) := by
    have := h.handle
    rwa [Graph.handle?, hn, Option.bind_some] at this
  have houts : (e.outputs n outlets).store = some store := by
    rw [outputs, hhandle]
    exact hstore
  rw [hf.process] at hp
  obtain ⟨⟨c, written⟩, hprocess, hp⟩ := bind_eq_ok.1 hp
  cases hp
  obtain ⟨rfl, hwritten⟩ := process_tableWriter hin houts hle hlast hprocess
  have hstored : written.store = some { store with samples := _ } := congrArg Outputs.store hwritten
  rw [hsamples] at hw hstored ⊢
  refine h.of_works hw (Tape.name_follow ..) ?_ ?_
  · rw [afterCompute, Engine.modifyNode, Graph.node?_modifyNode, if_pos rfl]
    exact congrArg (fun n : Option (Node U) => (n.map _).map Node.body) hn
  · show ((writeNamed e.graph.names n.handle _).stores.get? slot).map Store.samples = _
    rw [hhandle]
    exact samples_writeNamed hstore hstored

/-- A message that the unit receives is a beat. -/
theorem Taped.receive (h : e.Taped f x slot t) {n : Node U} {unit : U}
    (hn : e.graph.node? x = some n) (hu : n.body = .device unit) (inlet : Nat) (message : Message) :
    (e.received x unit inlet message).Taped f x slot (t.follow (.told message)) := by
  have hw := (works_received (law_leavesOn hf) e inlet message hn hu).graph
  obtain ⟨n', hn', hu', -⟩ := h.writer
  cases hn.symm.trans hn'
  cases hu.symm.trans hu'
  refine h.of_works hw (Tape.name_follow ..) ?_ ?_
  · have hends : (Device.receive (f (.tableWriter t.writer)) inlet message (e.surroundings x)).Ends
        (· = f (.tableWriter (t.writer.receive message))) := by
      rw [hf.receive]
      exact .map rfl
    obtain ⟨_, rfl, hbody⟩ := body_reactQuietly (e.record (.received x inlet message)) hn
      (f (.tableWriter t.writer)) hends
    exact hbody
  · exact (table?_reactQuietly (e.record (.received x inlet message)) x _ _).trans h.table

end Pieces

/-- That a unit that records has gone through the beats of a stretch of its history, and has heard a
signal in them. -/
def Recorded (f : CatalogueUnit → U) (x : UnitId) (slot : Nat) (t : Tape) (heard : Samples)
    (before : History) (signal : Samples) (e : Engine U) : Prop :=
  ∃ seg : History, e.history x = before ++ seg ∧
    e.Taped f x slot ((seg.beats heard).foldl Tape.follow t) ∧ Beat.signal (seg.beats heard) = signal

/-- How far a unit that records has come in its step: in the beats so far it has heard the samples that
it has computed. -/
structure Taping (f : CatalogueUnit → U) (x : UnitId) (slot size : Nat) (t : Tape) (heard : Samples)
    (before : History) (p : Progress) (e : Engine U) : Prop where
  blockSize : e.settings.blockSize = size
  last : p.last ≤ size
  recorded : e.Recorded f x slot t heard before (heard.extract 0 p.last)

section Step

variable {heard signal : Samples} {before : History} {p p' : Progress}

omit [Device U] in
theorem Recorded.taped (h : e.Recorded f x slot t heard before signal) : ∃ t', e.Taped f x slot t' :=
  h.imp' _ fun _ h => h.2.1

omit [Device U] in
/-- Messages arrive at the unit, if anything happens to it. -/
theorem Recorded.still (h : e.Recorded f x slot t heard before signal) (ps : List Pending)
    (hhistory : e'.history x = e.history x ++ ps.map (arrival x))
    (htaped : ∀ {t'}, e.Taped f x slot t' → e'.Taped f x slot t') :
    e'.Recorded f x slot t heard before signal := by
  obtain ⟨seg, hseg, hfollowed, hsignal⟩ := h
  have hbeats : History.beats heard (seg ++ ps.map (arrival x)) = seg.beats heard := by
    rw [History.beats_append, History.beats_arrivals, List.append_nil]
  refine ⟨seg ++ ps.map (arrival x), ?_, ?_, ?_⟩
  · rw [hhistory, hseg, List.append_assoc]
  · rw [hbeats]
    exact htaped hfollowed
  · rw [hbeats, hsignal]

omit [Device U] in
/-- That messages have arrived before is nothing to the unit. -/
theorem Recorded.behind {ps : List Pending}
    (h : e.Recorded f x slot t heard (before ++ ps.map (arrival x)) signal) :
    e.Recorded f x slot t heard before signal := by
  obtain ⟨seg, hseg, hfollowed, hsignal⟩ := h
  have hbeats : History.beats heard (ps.map (arrival x) ++ seg) = seg.beats heard := by
    rw [History.beats_append, History.beats_arrivals, List.nil_append]
  refine ⟨ps.map (arrival x) ++ seg, ?_, ?_, ?_⟩
  · rw [hseg, List.append_assoc]
  · rw [hbeats]
    exact hfollowed
  · rw [hbeats, hsignal]

omit [Device U] in
/-- One more thing happens to the unit, which is a beat. -/
theorem Recorded.happens (h : e.Recorded f x slot t heard before signal) {a : Happening} {b : Beat}
    (hbeat : a.beat? heard = some b) (hhistory : e'.history x = e.history x ++ [a])
    (htaped : ∀ {t'}, e.Taped f x slot t' → e'.Taped f x slot (t'.follow b)) :
    e'.Recorded f x slot t heard before (signal ++ b.samples) := by
  obtain ⟨seg, hseg, hfollowed, rfl⟩ := h
  have hbeats : History.beats heard (seg ++ [a]) = seg.beats heard ++ [b] := by
    rw [History.beats_append]
    exact congrArg (_ ++ ·) (List.filterMap_cons_some hbeat)
  refine ⟨seg ++ [a], ?_, ?_, ?_⟩
  · rw [hhistory, hseg, List.append_assoc]
  · rw [hbeats, List.foldl_append]
    exact htaped hfollowed
  · rw [hbeats, Beat.signal_append]
    exact congrArg (_ ++ ·) (Array.append_empty ..)

/-- The beats of a step are gone through one after the other. -/
theorem sweeps_tableWriter (hf : Faithful f) {ins : Inputs} (hin : ins.inlet 0 = .ok heard)
    (hsize : heard.size = size) (t : Tape) (before : History) :
    Sweeps (fun _ => ins) x size (fun _ _ => True)
      (fun p e => Taping f x slot size t heard before p (e : Engine U)) where
  blockSize h := h.blockSize
  last h := h.last
  compute := by
    rintro p e stop h hle hstop
    obtain ⟨_, hnow⟩ := h.recorded.taped
    obtain ⟨n, hn, hu, -⟩ := hnow.writer
    rw [compute_eq, hn]
    dsimp only
    rw [hu]
    dsimp only
    cases hp : Device.process (f _) ins ((e.record (.computed x p.last stop)).outputs n p.outlets)
        p.last stop with
    | error how => exact ⟨⟩
    | ok r =>
      obtain ⟨unit', outs⟩ := r
      have hrecord : e.graph.Works (LeavesOn f) Eq (e.record (.computed x p.last stop)).graph :=
        (works_refl (law_leavesOn hf) e).graph
      have hhistory : (e.record (.computed x p.last stop)).history x =
          e.history x ++ [.computed x p.last stop] :=
        (history_record ..).trans (by simp [Happening.concerns])
      have hheard : heard.extract 0 p.last ++ heard.extract p.last stop = heard.extract 0 stop :=
        Array.extract_append_extract.trans (by simp [hle])
      refine ⟨⟨h.blockSize, hstop, ?_⟩, rfl⟩
      rw [← hheard]
      refine h.recorded.happens (b := .heard (heard.extract p.last stop)) rfl hhistory fun ht => ?_
      exact (ht.works hrecord rfl rfl).compute hf hn hu hin hle (hsize ▸ hstop) hp
  take := by
    rintro p e next e' h hnext
    have hworks := (works_nextPending? (law_leavesOn hf) hnext).graph
    obtain ⟨n, rest, -, -, rfl⟩ := nextPending?_eq_some hnext
    refine ⟨h.blockSize, h.last, h.recorded.still [] (List.append_nil _).symm fun ht => ?_⟩
    exact ht.works hworks (body_modifyNode _ _ fun _ => rfl) rfl
  receive := by
    rintro p e next h
    obtain ⟨t', hnow⟩ := h.recorded.taped
    obtain ⟨n, hn, hu, -⟩ := hnow.writer
    have hsilent : e.answers x (f (.tableWriter t'.writer)) next.inlet next.message = [] := by
      rw [answers, hf.receive]
      rfl
    have hreceived : e.receivePending x next =
        e.received x (f (.tableWriter t'.writer)) next.inlet next.message := by
      rw [receivePending_eq hn hu, hsilent]
      rfl
    have hworks := works_received (law_leavesOn hf) e next.inlet next.message hn hu
    have hhistory : (e.received x (f (.tableWriter t'.writer)) next.inlet next.message).history x =
        e.history x ++ [.received x next.inlet next.message] := by
      rw [history_received, if_pos rfl]
    rw [hreceived]
    refine ⟨⟨(congrArg Settings.blockSize hworks.settings).trans h.blockSize, h.last, ?_⟩,
      waiting_congr (mailbox?_received ..)⟩
    have hheard : heard.extract 0 p.last ++ #[] = heard.extract 0 p.last := Array.append_empty ..
    rw [← hheard]
    exact h.recorded.happens (b := .told next.message) rfl hhistory fun ht =>
      ht.receive hf hn hu next.inlet next.message
  calm := by
    rintro p e h
    refine ⟨h.blockSize, h.last, h.recorded.still [] (List.append_nil _).symm fun ht => ?_⟩
    exact ht.works (works_calm (law_leavesOn hf) e x).graph (body_modifyNode _ _ fun _ => rfl) rfl

end Step

/-- In its step the unit goes through the beats of one block, and hears in them what it reads at its
inlet. -/
theorem recorded_of_runStep (hs : Steady U) (hf : Faithful f) (hm : e.graph.pool.Stores size m)
    (hequips : plan.Equips e.graph x) (hblockSize : e.settings.blockSize = size)
    (h : e.Taped f x slot t) (hrun : runStep plan (.unit x) e = .ok ⟨⟩ e') :
    (hears plan e x 0).size = size ∧
      e'.Recorded f x slot t (hears plan e x 0) (e.history x) (hears plan e x 0) := by
  obtain ⟨n, u, hn, hu, -, hfits⟩ := hequips
  obtain ⟨outlets, pool, htake, -⟩ := takeOutlets_spec hm hfits.apart
  obtain ⟨hin, hsize⟩ := inlet_eq_hears hm hfits htake 0
  generalize hears plan e x 0 = heard at hin hsize ⊢
  refine ⟨hsize, ?_⟩
  have hpool : ∀ (e : Engine U) pool {t}, e.Taped f x slot t → (e.withPool pool).Taped f x slot t :=
    fun e pool t ht =>
      ht.works (works_withPool (Q := fun _ _ => True) (law_leavesOn hf).refl e ⟨⟩).graph rfl rfl
  obtain ⟨outs, e₁, hblock, hend⟩ := run_bind_eq_ok.1 hrun
  cases hend
  rw [computeBlock_reads hs.alike x _ htake] at hblock
  suffices hyields : Yields (fun _ _ => True)
      (fun _ e' => e'.Recorded f x slot t heard (e.history x) heard)
      (computeBlock (fun _ => (e.withPool pool).inputs (plan.binding x)) x (plan.binding x) e) from
    hyields.of_ok hblock
  refine (computeBlock_yields hs hm hfits.apart hn _
    (P := fun _ e' => e'.Recorded f x slot t heard (e.history x) heard) ?_ ?_).mono fun _ _ h => h.2
  · rintro _ e' pool hrecorded
    exact hrecorded.still [] (List.append_nil _).symm fun ht => hpool e' pool ht
  · intro outlets' pool' htake'
    cases htake.symm.trans htake'
    have hstart : Taping f x slot size t heard (e.history x) { outlets } (e.withPool pool) := by
      refine ⟨hblockSize, Nat.zero_le _, [], (List.append_nil _).symm, hpool e pool h, ?_⟩
      exact (Array.extract_empty_of_stop_le_start (Nat.le_refl 0)).symm
    refine ((sweeps_tableWriter hf hin hsize t (e.history x)).computeSamples hstart hn).mono ?_
    rintro p e' ⟨hp, hend⟩
    have hall := hp.recorded
    rwa [hend, ← hsize, Array.extract_size] at hall

/-! ## Blocks -/

/-- What a unit hears at its first inlet in a block. -/
def overheard (e : Engine U) (input : Samples) (x : UnitId) : Samples :=
  match (drain e.blockEnd roundLimit >>= fun _ => compile) (openBlock input e) with
  | .ok plan started => heard plan plan.steps.toList started x 0
  | .error .. => #[]

/-- What a unit hears when steps are run is what it reads when its own comes. -/
theorem heard_eq_hears {pre post : List Step} (hpre : .unit x ∉ pre)
    (hrun : play plan pre e = .ok ⟨⟩ e') : heard plan (pre ++ .unit x :: post) e x = hears plan e' x := by
  induction pre generalizing e with
  | nil =>
    cases hrun
    rw [List.nil_append, heard, if_pos rfl]
  | cons s pre ih =>
    rw [play, List.forM_cons] at hrun
    obtain ⟨_, e₁, hstep, hrun⟩ := run_bind_eq_ok.1 hrun
    obtain ⟨hs, hpre⟩ := List.ne_and_not_mem_of_not_mem_cons hpre
    rw [List.cons_append, heard_cons_of_ne hstep (Ne.symm hs)]
    exact ih hpre hrun

section Visits

variable {settings : Settings} {input : Samples} {pre post : List Step}
  {drained started reached left ended : Engine U}
variable (h : Visit e input x plan pre post drained started reached left ended)
include h

/-- What a unit hears in a block is what it reads when its step comes. -/
theorem Visit.overheard_eq : e.overheard input x = hears plan reached x 0 := by
  have hheard : heard plan (pre ++ .unit x :: post) started x = hears plan reached x :=
    heard_eq_hears h.before h.reaches
  rw [← hheard, ← h.split, overheard, run_bind_eq_ok.2 ⟨_, _, h.drains, h.compiles⟩]

/-- When the step of a unit comes, it and the buffers are as the plan takes them to be. -/
theorem Visit.equips (hs : Steady U) (hroomy : Roomy settings e) (hroom : e.graph.HasRoom) :
    plan.Equips reached.graph x ∧ ∃ m, reached.graph.pool.Stores settings.blockSize m := by
  have hkept := kept_of_reachable hs.alike hroomy.reachable
  obtain ⟨plan', g, hstarts⟩ := exists_starts hs hkept hroom (hroomy.filled hs) h.drains
  cases hstarts.compiles.symm.trans h.compiles
  have hmem : .unit x ∈ plan.steps.toList := by simp [h.split]
  have hsub : ∀ s ∈ pre, s ∈ plan.steps.toList := fun s hs => by
    rw [h.split]
    exact List.mem_append_left _ hs
  obtain ⟨hworks, m, hm⟩ := (play_spec hs (hstarts.planned.playable hstarts.room) hstarts.filled
    hsub).of_ok h.reaches
  have hsize : reached.graph.pool.blockSize = settings.blockSize :=
    hworks.graph.pool.blockSize.trans (hstarts.blockSize.trans (hroomy.blockSize hs))
  exact ⟨(hstarts.planned.equips hstarts.room hmem).works hworks.graph, m, hsize ▸ hm⟩

/-- Nothing is done to a unit that records, or to its table, until its step comes. -/
theorem Visit.taped (hf : Faithful f) (ht : e.Taped f x slot t) : reached.Taped f x slot t := by
  have hopened : (openBlock input e).Taped f x slot t :=
    ht.works (works_openBlock (law_leavesOn hf) input e) rfl rfl
  have hdrained := taped_of_moves hf (moves_drain (fun _ => False) h.drains) not_false hopened
  obtain ⟨hnodes, hnames⟩ := graph_compile h.compiles
  exact taped_of_moves hf (moves_play h.reaches) h.before (hdrained.of_nodes hnodes hnames)

end Visits

/-- In a block the unit hears a block of samples, and goes through the beats of what happens to it. -/
theorem recorded_of_process (hs : Steady U) (hf : Faithful f) {settings : Settings}
    (hroomy : Roomy settings e) (hroom : e.graph.HasRoom) {input samples : Samples} {outLength : Nat}
    (h : e.Taped f x slot t) (hrun : process input outLength e = .ok samples e') :
    (e.overheard input x).size = settings.blockSize ∧
      e'.Recorded f x slot t (e.overheard input x) (e.history x) (e.overheard input x) := by
  have hl := hs.alike.computesAlike
  have hcomputes : e.graph.Computes x := by
    obtain ⟨n, hn, hu, -⟩ := h.writer
    refine ⟨n, hn, ?_⟩
    rw [hu]
    exact hf.computes _
  obtain ⟨plan, pre, post, drained, started, reached, left, ended, hvisit, rfl⟩ :=
    exists_visit hl hroomy.reachable hrun hcomputes
  -- before its step messages arrive
  obtain ⟨hcomputes', hsettings, -, earlier, hearlier, -⟩ := hvisit.arrivals hl hcomputes
  obtain ⟨hequips, m, hm⟩ := hvisit.equips hs hroomy hroom
  have hblockSize : reached.settings.blockSize = settings.blockSize := by
    rw [hsettings, settings_of_reachable hroomy.reachable]
  -- in its step it goes through its beats
  obtain ⟨hsize, hrecorded⟩ :=
    recorded_of_runStep hs hf hm hequips hblockSize (hvisit.taped hf h) hvisit.leaves
  rw [hvisit.overheard_eq]
  refine ⟨hsize, ?_⟩
  -- and behind it more messages arrive
  obtain ⟨later, hlater, -⟩ := hvisit.arrivals_behind hl hcomputes'
  have hended := hrecorded.still later hlater fun ht =>
    taped_of_moves hf (moves_play hvisit.ends) hvisit.behind ht
  rw [hearlier] at hended
  exact hended.behind.still [] (List.append_nil _).symm fun ht => ht.of_nodes rfl rfl

end Engine
end Patchbay
