import Patchbay.Proofs.Engine.Arrivals
import Patchbay.Proofs.Number.Sum
import Patchbay.Proofs.Queue

/-!
# The clock and the queue

Whatever happens, events stay in the order of their delivery (`stable_of_moves`), and blocks follow one
another in time (`timely_of_reachable`), unless the sample rate is such that they run backwards.
-/

namespace Patchbay.Engine

variable {U : Type} [Device U] {command : Engine.Command U} {settings : Settings}
  {e e' : Engine U}

/-! ## When events count as due -/

/-- When an event counts as due in a block. -/
def dueTime (start : Float) (event : Event) : Float :=
  if event.timestamp < start then start else event.timestamp

omit [Device U] in
theorem timestamp_onTime (e : Engine U) (event : Event) :
    (e.onTime event).timestamp = dueTime e.blockStart event := by
  unfold onTime dueTime
  split <;> rfl

omit [Device U] in
theorem target_onTime (e : Engine U) (event : Event) : (e.onTime event).target = event.target := by
  unfold onTime
  split <;> rfl

section DueTime

variable {start stop : Float} {event other : Event}

/-- An event that is due before the end of a block counts as due within the block. -/
theorem dueTime_mem (htime : event.timestamp.isNaN = false) (hle : start ≤ stop)
    (hlt : event.timestamp < stop) : start ≤ dueTime start event ∧ dueTime start event ≤ stop := by
  obtain ⟨hstart, -⟩ := Double.le_iff.1 hle
  unfold dueTime
  split
  · exact ⟨Double.le_refl hstart, hle⟩
  · next hnot => exact ⟨Double.le_of_not_lt htime hstart hnot, Double.le_of_lt hlt⟩

/-- An event that is not late counts as due at its time. -/
theorem dueTime_eq (hle : start ≤ event.timestamp) : dueTime start event = event.timestamp :=
  if_neg fun hlt => Double.not_lt_self _ (Double.lt_of_le_of_lt hle hlt)

/-- Of two events the later one does not count as due before the other. -/
theorem dueTime_le_dueTime (hstart : start.isNaN = false) (hle : event.timestamp ≤ other.timestamp) :
    dueTime start event ≤ dueTime start other := by
  unfold dueTime
  split
  · split
    · exact Double.le_refl hstart
    · next hnot => exact Double.le_of_not_lt (Double.le_iff.1 hle).2.1 hstart hnot
  · next hnot =>
    rw [if_neg fun hlt => hnot (Double.lt_of_le_of_lt hle hlt)]
    exact hle

end DueTime

/-! ## The order of delivery -/

omit [Device U] in
theorem stable_carryOut (id : UnitId) (label : String) (script : Script U) (e : Engine U)
    (h : e.queue.Stable) : (carryOut id label script e).2.queue.Stable := by
  induction script generalizing e with
  | done => exact h
  | send _ _ _ ih | sendTo _ _ _ ih | report _ _ _ ih => exact ih _ h
  | schedule outlet message next ih => exact ih _ _ (Queue.stable_insert h id outlet message)
  | cancel outlet event next ih =>
    exact ih _ _ (h.of_sublist (Queue.remove_sublist e.queue id outlet event) le_rfl)

/-- Whatever happens in a block, events stay in the order of their delivery. -/
theorem stable_of_move {own : UnitId → Prop} (h : Move own e e') (hs : e.queue.Stable) :
    e'.queue.Stable := by
  cases h with
  | ripple h =>
    cases h with
    | report | collect | defer => exact hs
    | receive => exact stable_carryOut _ _ _ (e.record _) hs
  | fall hpop => exact Queue.stable_popBefore? hs hpop
  | emit => exact stable_carryOut _ _ _ e hs
  | receive => exact stable_carryOut _ _ _ (e.record _) hs
  | pool | compute | calm => exact hs
  | take _ hnext =>
    unfold nextPending? at hnext
    split at hnext
    · cases hnext
      exact hs
    · cases hnext

theorem stable_of_moves {own : UnitId → Prop} (h : Moves own e e') (hs : e.queue.Stable) :
    e'.queue.Stable :=
  h.keeps (P := fun e => e.queue.Stable) (fun _ _ => stable_of_move) hs

/-! ## Time between blocks -/

/-- What holds of time between blocks: events are in the order of their delivery, and time does not
start before zero. -/
structure Timely (settings : Settings) (e : Engine U) : Prop where
  stable : e.queue.Stable
  same : e.settings = settings
  start : e.blockStart.isNaN = false → 0 ≤ e.blockStart

omit [Device U] in
/-- A block does not end before it starts. -/
theorem Timely.blockEnd (h : e.Timely settings) (hduration : ¬ settings.blockDuration < 0)
    (hend : e.blockEnd.isNaN = false) : 0 ≤ e.blockStart ∧ e.blockStart ≤ e.blockEnd := by
  obtain ⟨hstart, hnumber⟩ := Double.isNaN_of_add hend
  rw [h.same] at hnumber
  have hnonneg : 0 ≤ e.settings.blockDuration := by
    rw [h.same]
    exact Double.le_of_not_lt hnumber (by decide +kernel) hduration
  exact ⟨h.start hstart, Double.le_add (h.start hstart) hnonneg⟩

theorem timely_of_deed (hduration : ¬ settings.blockDuration < 0) (hd : Deed command e e')
    (h : e.Timely settings) : e'.Timely settings := by
  have hsame := (settings_of_deed hd).trans h.same
  cases hd with
  | idle | declined | edited | unheard | listened | taken => exact ⟨h.stable, hsame, h.start⟩
  | @removed id body g =>
    refine ⟨?_, hsame, h.start⟩
    exact List.foldlRecOn (e.graph.descendants id) Queue.removeUnit h.stable fun q hq target _ =>
      hq.of_sublist (Queue.removeUnit_sublist q target) le_rfl
  | scheduled message => exact ⟨Queue.stable_insert h.stable _ _ message, hsame, h.start⟩
  | cancelled target outlet id =>
    exact ⟨h.stable.of_sublist (Queue.remove_sublist _ _ _ _) le_rfl, hsame, h.start⟩
  | sent name message =>
    refine ⟨?_, hsame, h.start⟩
    exact List.foldlRecOn (e.graph.names.receivers name) _ h.stable fun q hq id _ =>
      Queue.stable_insert hq id 0 message
  | planned hplan =>
    obtain ⟨g, -, rfl⟩ := compile_eq_ok.1 hplan
    exact ⟨h.stable, hsame, h.start⟩
  | played _ hp =>
    obtain ⟨drained, plan, planned, ended, hdrain, hplan, hplay, rfl⟩ := process_eq_ok hp
    have hdrained := moves_drain (fun _ => False) hdrain
    have hplayed := moves_play hplay
    obtain ⟨g, -, rfl⟩ := compile_eq_ok.1 hplan
    have hdrained' : drained.queue.Stable := stable_of_moves hdrained h.stable
    have hstable : ended.queue.Stable := stable_of_moves hplayed hdrained'
    refine ⟨hstable, hsame, fun hend => ?_⟩
    obtain ⟨hstart, hle⟩ := h.blockEnd hduration hend
    exact Double.le_of_le_of_le hstart hle

theorem timely_of_reachable (hduration : ¬ settings.blockDuration < 0) (h : Reachable settings e) :
    e.Timely settings := by
  refine h.keeps (fun e hnew => ?_) fun _ _ _ => timely_of_deed hduration
  obtain ⟨_, -, hnew⟩ := bind_eq_ok.1 hnew
  obtain ⟨_, -, hnew⟩ := bind_eq_ok.1 hnew
  obtain ⟨_, -, hnew⟩ := bind_eq_ok.1 hnew
  cases hnew
  have hzero : (0 : Float) ≤ 0 := by decide +kernel
  exact ⟨Queue.stable_empty, rfl, fun _ => hzero⟩

/-- At a sample rate above zero no block lasts less than no time. -/
theorem duration_of_rate (hrate : 0 < settings.sampleRate) : ¬ settings.blockDuration < 0 := by
  intro hlt
  have hnonneg := (Double.unsigned_blockDuration hrate).nonneg
  have hle := Double.nonneg_iff.2 ⟨(Double.lt_iff.1 hlt).1, hnonneg⟩
  exact Double.not_lt_self _ (Double.lt_of_lt_of_le hlt hle)

end Patchbay.Engine
