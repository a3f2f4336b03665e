import Patchbay.Proofs.Catalogue.DelayLine
import Patchbay.Proofs.Catalogue.Seamless
import Patchbay.Proofs.Number.Counting

/-!
# The end of a ramp

A ramp counts the samples that are left of it down by one for each, in single precision, and is on its
target once nothing is left (`Ramp.remaining_run`, `Ramp.signal_eq_target`). How its blocks are cut into
pieces makes no difference to its signal (`RampRun.Proper.computes`). So a ramp ends on its target, and
on time, as far as counting down in single precision comes to zero: if it is no longer than
`2 ^ 24 + 2` samples. A longer one never ends (`RampRun.ends_on_target`).
-/

namespace Patchbay

open Catalogue

/-! ## What a message asks for -/

theorem roundCount_lt (x : Float) : roundCount x < 2 ^ 64 := by
  unfold roundCount
  dsimp only
  split
  · decide
  · split
    · decide
    · exact (Nat.min_le_right _ _).trans_lt (by decide)

theorem Message.not_hasSelector {message : Message} {value : Float32} (name : String)
    (h : message.floatAt 0 = some value) : message.hasSelector name = false := by
  have hfirst : message.atoms[0]? = some (.float value) := by
    unfold floatAt at h
    split at h
    · next hatom =>
      cases h
      exact hatom
    · cases h
  rw [hasSelector, symbolAt, hfirst]
  rfl

namespace Catalogue.Ramp

/-- The samples of a ramp that is to take a time, at least one of them and no less than a
millisecond. -/
def duration (settings : Settings) (time : Float32) : Nat :=
  max 1 (settings.msToSamples (widen (maxSingle time 1)))

theorem duration_pos (settings : Settings) (time : Float32) : 0 < duration settings time :=
  Nat.le_max_left _ _

theorem duration_lt (settings : Settings) (time : Float32) : duration settings time < 2 ^ 64 :=
  max_lt (by decide) (roundCount_lt _)

theorem maxSingle_one {x : Float32} (h : 1 ≤ x) : maxSingle x 1 = x := by
  obtain ⟨-, hnan, -⟩ := Single.le_iff.1 h
  have hnan : x.isNaN = false := hnan
  rw [maxSingle, hnan, if_neg Bool.false_ne_true, if_neg (by decide), if_neg (Single.not_lt_of_le h)]

/-- A target and a time start a ramp of as many samples as the time takes. -/
theorem receive_of_target (u : Ramp) (settings : Settings) {message : Message}
    {target time : Float32} (htarget : message.floatAt 0 = some target)
    (htime : message.floatAt 1 = some time) :
    (u.receive 0 message settings).target = target ∧
      (u.receive 0 message settings).remaining = Single.ofCount (duration settings time) := by
  -- the greater of two numbers is that of the greater count, since no count above zero is below one
  have hremaining : maxSingle (Single.ofCount (settings.msToSamples (widen (maxSingle time 1)))) 1 =
      Single.ofCount (duration settings time) := by
    unfold duration
    have hword := roundCount_lt (widen (maxSingle time 1) / settings.msPerSample)
    change settings.msToSamples (widen (maxSingle time 1)) < 2 ^ 64 at hword
    generalize settings.msToSamples (widen (maxSingle time 1)) = samples at hword
    rcases Nat.eq_zero_or_pos samples with rfl | hpos
    · decide +kernel
    · rw [maxSingle_one (Single.one_le_ofCount hpos hword), max_eq_right hpos]
  unfold receive
  rw [if_neg (by decide), Message.not_hasSelector _ htarget, htarget, htime]
  exact ⟨rfl, hremaining⟩

/-! ## Sample by sample -/

variable (u : Ramp)

theorem remaining_step : u.step.2.remaining = Single.countDown u.remaining := by
  unfold step Single.countDown
  split <;> rfl

theorem target_step : u.step.2.target = u.target := by
  unfold step
  split <;> rfl

/-- What is left of a ramp is counted down by one for each sample. -/
theorem remaining_run (count : Nat) :
    (u.run count).2.remaining = Single.countDown^[count] u.remaining := by
  unfold run
  split
  · next hended =>
    have hstays : Single.countDown u.remaining = u.remaining := if_neg (Single.not_lt_of_le hended)
    exact (Function.iterate_fixed hstays count).symm
  · induction count with
    | zero => rfl
    | succ count ih =>
      have hpush : silence (count + 1) = (silence count).push 0 := Array.replicate_succ
      rw [hpush, feed_push, Function.iterate_succ_apply', ← ih]
      exact remaining_step _

theorem target_run (count : Nat) : (u.run count).2.target = u.target := by
  unfold run
  split
  · rfl
  · refine feed_keeps (P := fun v : Ramp => v.target = u.target) (fun v _ hv => ?_) rfl
    exact (target_step v).trans hv

/-- The sample that a ramp sends after some others. -/
def signal (t : Nat) : Float32 := (u.run t).2.step.1

theorem run_one : (u.run 1).1 = #[u.step.1] := by
  unfold run
  split
  · next hended =>
    rw [step, if_neg (Single.not_lt_of_le hended)]
    rfl
  · rfl

theorem signal_run (count t : Nat) : (u.run count).2.signal t = u.signal (count + t) := by
  rw [signal, signal, run_add]

theorem getElem?_run {count t : Nat} (h : t < count) : (u.run count).1[t]? = some (u.signal t) := by
  obtain ⟨rest, rfl⟩ := Nat.exists_eq_add_of_lt h
  have hsize : (u.run t).1.size = t := u.size_run t
  rw [Nat.add_assoc, Nat.add_comm rest, run_add, Array.getElem?_append_right hsize.le, hsize,
    Nat.sub_self, run_add, run_one]
  exact Array.getElem?_append_left Nat.one_pos

theorem signal_eq_target {t : Nat} (h : Single.countDown^[t] u.remaining ≤ 0) :
    u.signal t = u.target := by
  rw [← remaining_run] at h
  rw [signal, step, if_neg (Single.not_lt_of_le h), target_run]

/-- That a ramp of which nothing is left is where it was to end. -/
def Settled : Prop := u.remaining ≤ 0 → u.current = u.target

theorem settled_run (count : Nat) : (u.run count).2.Settled := by
  by_cases hended : u.remaining ≤ 0
  · have hrun : u.run count = (Array.replicate count u.target, { u with current := u.target }) :=
      if_pos hended
    rw [hrun]
    exact fun _ => rfl
  · have hrun : u.run count = feed (fun u _ => u.step) u (silence count) := if_neg hended
    rw [hrun]
    exact u.current_feed hended (silence count)

variable {u}

theorem Settled.run_zero (h : u.Settled) : (u.run 0).2 = u := by
  by_cases hended : u.remaining ≤ 0
  · have hrun : u.run 0 = (#[], { u with current := u.target }) := if_pos hended
    rw [hrun]
    exact congrArg (fun value => { u with current := value }) (h hended).symm
  · have hrun : u.run 0 = (#[], u) := if_neg hended
    rw [hrun]

end Catalogue.Ramp

/-! ## Block by block -/

section Pieces

variable {u : Ramp} (ins : Inputs) {outs : Outputs} {samples : Samples} {first last : Nat}

/-- A ramp writes the next part of its signal, whatever the pieces. -/
theorem pieces_ramp (hu : u.Settled) (hout : outs.outlets[0]? = some samples)
    (hlast : last ≤ samples.size) {pieces : List (Nat × Nat)} (htiles : Tiles first last pieces) :
    ∃ outs' samples', inPieces (CatalogueUnit.ramp u) ins outs pieces =
        .ok (.ramp (u.run (last - first)).2, outs') ∧ outs'.outlet 0 = .ok samples' ∧
      ∀ i, first ≤ i → i < last → samples'[i]? = some (u.signal (i - first)) := by
  cases pieces with
  | nil =>
    -- no piece at all: the unit is not even asked to put an ended ramp on its target
    obtain rfl : first = last := htiles
    refine ⟨outs, samples, ?_, ?_, fun i hi hi' => absurd hi' (Nat.not_lt.2 hi)⟩
    · rw [Nat.sub_self, hu.run_zero]
      rfl
    · rw [Outputs.outlet, hout]
  | cons piece pieces =>
    obtain ⟨rfl, hpiece, hrest⟩ := htiles
    have hle : piece.1 ≤ last := hpiece.trans hrest.le
    let written := overwrite samples piece.1 (u.run (last - piece.1)).1
    have hset : outs.setOutlet 0 piece.1 last (u.run (last - piece.1)).1 =
        .ok { outs with outlets := outs.outlets.setIfInBounds 0 written } :=
      Outputs.setOutlet_eq_ok.2 ⟨samples, hout, hle, hlast, rfl⟩
    have hwhole : CatalogueUnit.process (.ramp u) ins outs piece.1 last =
        .ok (.ramp (u.run (last - piece.1)).2,
          { outs with outlets := outs.outlets.setIfInBounds 0 written }) := by
      refine bind_eq_ok.2 ⟨(_, _), ?_, rfl⟩
      rw [Ramp.process_eq]
      exact bind_eq_ok.2 ⟨_, hset, rfl⟩
    refine ⟨_, written, CatalogueUnit.inPieces_eq_process hpiece hrest hwhole, ?_, ?_⟩
    · have hin : 0 < outs.outlets.size := (Array.getElem?_eq_some_iff.1 hout).1
      rw [Outputs.outlet, Array.getElem?_setIfInBounds_self_of_lt hin]
    · intro i hi hi'
      have hsize := u.size_run (last - piece.1)
      rw [getElem?_overwrite _ _ _ _ (by omega), if_pos (by omega)]
      exact u.getElem?_run (by omega)

end Pieces

/-- A ramp from a message on, over the samples that follow until the next message. They are cut into
ranges, at most one in a block, and each range is computed in pieces. -/
structure RampRun where
  settings : Settings
  message : Message
  target : Float32
  /-- The time that the ramp is to take, in milliseconds. -/
  time : Float32
  /-- The ramp before the message. -/
  ramp : Ramp
  reads : Nat → Inputs
  outs : Nat → Outputs
  first : Nat → Nat
  last : Nat → Nat
  /-- The pieces in which each range is computed. -/
  pieces : Nat → List (Nat × Nat)

namespace RampRun

variable (run : RampRun)

/-- The ramp as the message leaves it. -/
def started : Ramp := run.ramp.receive 0 run.message run.settings

/-- The samples that the ramp is to take. -/
def duration : Nat := Ramp.duration run.settings run.time

/-- The samples between the message and a range. -/
def elapsed : Nat → Nat
  | 0 => 0
  | k + 1 => elapsed k + (run.last k - run.first k)

/-- The unit before a range. -/
def unitBefore : Nat → Except Fault CatalogueUnit
  | 0 => .ok (.ramp run.started)
  | k + 1 => do
    let (unit, _) ← inPieces (← unitBefore k) (run.reads k) (run.outs k) (run.pieces k)
    return unit

/-- What the unit becomes and writes in a range. -/
def compute (k : Nat) : Except Fault (CatalogueUnit × Outputs) := do
  inPieces (← run.unitBefore k) (run.reads k) (run.outs k) (run.pieces k)

/-- That a run is one of an engine: the message asks for a target and a time, the buffer of the outlet
is long enough for each range, and the pieces of a range are the whole of it. -/
structure Proper : Prop where
  target : run.message.floatAt 0 = some run.target
  time : run.message.floatAt 1 = some run.time
  outlet : ∀ k, ∃ samples, (run.outs k).outlets[0]? = some samples ∧ run.last k ≤ samples.size
  tiles : ∀ k, Tiles (run.first k) (run.last k) (run.pieces k)

variable {run}

namespace Proper

variable (h : run.Proper)
include h

theorem settled_started : run.started.Settled := by
  intro hended
  rw [started, (Ramp.receive_of_target _ _ h.target h.time).2] at hended
  have hpos := Single.ofCount_pos (Ramp.duration_pos run.settings run.time)
    (Ramp.duration_lt run.settings run.time)
  exact absurd hpos (Single.not_lt_of_le hended)

theorem unitBefore_eq (k : Nat) :
    run.unitBefore k = .ok (.ramp (run.started.run (run.elapsed k)).2) := by
  induction k with
  | zero => rw [elapsed, h.settled_started.run_zero, unitBefore]
  | succ k ih =>
    obtain ⟨samples, hout, hlast⟩ := h.outlet k
    obtain ⟨_, _, hpieces, -⟩ := pieces_ramp (run.reads k) (run.started.settled_run _) hout
      hlast (h.tiles k)
    rw [unitBefore, ih, ok_bind, hpieces, ok_bind, elapsed, Ramp.run_add]
    rfl

/-- However the samples are cut into ranges and pieces, what a ramp sends is its signal. -/
theorem computes (k : Nat) : ∃ outs samples,
    run.compute k = .ok (.ramp (run.started.run (run.elapsed (k + 1))).2, outs) ∧
      outs.outlet 0 = .ok samples ∧ ∀ i, run.first k ≤ i → i < run.last k →
        samples[i]? = some (run.started.signal (run.elapsed k + (i - run.first k))) := by
  obtain ⟨samples, hout, hlast⟩ := h.outlet k
  obtain ⟨outs, samples', hpieces, hsamples', hsignal⟩ := pieces_ramp (run.reads k)
    (run.started.settled_run (run.elapsed k)) hout hlast (h.tiles k)
  refine ⟨outs, samples', ?_, hsamples', ?_⟩
  · rw [compute, h.unitBefore_eq, ok_bind, hpieces, elapsed, Ramp.run_add]
  · intro i hi hi'
    rw [hsignal i hi hi', Ramp.signal_run]

end Proper

/-- From the time on that it was to take, a ramp sends its target, and nothing is left of it, if it was
to take no more than `2 ^ 24 + 2` samples; something is left of a longer one for ever. No piece meets
a fault. -/
theorem ends_on_target (h : run.Proper) (k : Nat) : ∃ u outs samples,
    run.compute k = .ok (.ramp u, outs) ∧ outs.outlet 0 = .ok samples ∧
      (run.duration ≤ 2 ^ 24 + 2 → ∀ i, run.first k ≤ i → i < run.last k →
        run.duration ≤ run.elapsed k + (i - run.first k) → samples[i]? = some run.target) ∧
      (run.duration ≤ run.elapsed (k + 1) → (u.remaining = 0 ↔ run.duration ≤ 2 ^ 24 + 2)) := by
  obtain ⟨htarget, hremaining⟩ := Ramp.receive_of_target run.ramp run.settings h.target h.time
  obtain ⟨outs, samples, hcompute, hsamples, hsignal⟩ := h.computes k
  -- what decides is whether the count that the message sets comes to zero
  have hzero : ∀ t, run.duration ≤ t →
      (Single.countDown^[t] run.started.remaining = 0 ↔ run.duration ≤ 2 ^ 24 + 2) := by
    intro t ht
    rw [started, hremaining]
    exact Single.iterate_countDown_eq_zero_iff (Ramp.duration_lt _ _) ht
  refine ⟨_, outs, samples, hcompute, hsamples, ?_, ?_⟩
  · intro hshort i hi hi' ht
    have hended := (hzero _ ht).2 hshort
    have hle : Single.countDown^[run.elapsed k + (i - run.first k)] run.started.remaining ≤ 0 := by
      rw [hended]
      decide +kernel
    rw [hsignal i hi hi', Ramp.signal_eq_target _ hle, started, htarget]
  · intro ht
    rw [Ramp.remaining_run]
    exact hzero _ ht

/-- A ramp of three samples that starts behind the first sample of a block of four, and goes on in the
blocks after it. It is interrupted in each of them. -/
def landing : RampRun where
  settings := ⟨1000, 4, 0, 1⟩
  message := .ofAtoms 0 [.float 1, .float 3]
  target := 1
  time := 3
  ramp := .restingAt 0.25
  reads _ := { pool := { blockSize := 4 }, inlets := #[], hostInput := #[], blockSize := 4 }
  outs _ := { outlets := #[silence 4], hostOutput := #[], blockSize := 4 }
  first k := if k = 0 then 1 else 0
  last _ := 4
  pieces k := if k = 0 then [(1, 2), (2, 4)] else [(0, 3), (3, 4)]

theorem proper_landing : landing.Proper where
  target := rfl
  time := rfl
  outlet _ := ⟨silence 4, rfl, Nat.le_refl 4⟩
  tiles k := by
    cases k with
    | zero => exact ⟨rfl, by decide, rfl, by decide, rfl⟩
    | succ k => exact ⟨rfl, by decide, rfl, by decide, rfl⟩

/-- From the second block on it sends nothing but its target. -/
theorem ends_on_target_landing : landing.Proper ∧ landing.duration = 3 ∧ landing.elapsed 1 = 3 ∧
    ∃ u outs samples, landing.compute 1 = .ok (.ramp u, outs) ∧ outs.outlet 0 = .ok samples ∧
      (∀ i < 4, samples[i]? = some 1) ∧ u.remaining = 0 := by
  have hduration : landing.duration = 3 := by decide +kernel
  have helapsed : landing.elapsed 1 = 3 := by decide
  have helapsed' : landing.elapsed (1 + 1) = 7 := by decide
  have hshort : landing.duration ≤ 2 ^ 24 + 2 := by omega
  obtain ⟨u, outs, samples, hcompute, hsamples, htarget, hends⟩ := ends_on_target proper_landing 1
  refine ⟨proper_landing, hduration, helapsed, u, outs, samples, hcompute, hsamples, ?_, ?_⟩
  · intro i hi
    exact htarget hshort i (Nat.zero_le i) hi (by omega)
  · exact (hends (by omega)).2 hshort

/-- A ramp of 16777220 samples from 2 to 3. -/
def endless : RampRun where
  settings := ⟨1000, 4, 0, 1⟩
  message := .ofAtoms 0 [.float 3, .float 16777220]
  target := 3
  time := 16777220
  ramp := .restingAt 2
  reads _ := { pool := { blockSize := 4 }, inlets := #[], hostInput := #[], blockSize := 4 }
  outs _ := { outlets := #[silence 4], hostOutput := #[], blockSize := 4 }
  first _ := 0
  last _ := 4
  pieces _ := [(0, 4)]

theorem proper_endless : endless.Proper where
  target := rfl
  time := rfl
  outlet _ := ⟨silence 4, rfl, Nat.le_refl 4⟩
  tiles _ := ⟨rfl, by decide, rfl⟩

/-- It counts down from a number that one less is rounded to, in steps that are too small to change its
value. So it sends 2 for ever. -/
theorem endless_never_ends : endless.Proper ∧ endless.duration = 16777220 ∧
    ∀ k, ∃ u outs samples, endless.compute k = .ok (.ramp u, outs) ∧ outs.outlet 0 = .ok samples ∧
      (∀ i < 4, samples[i]? = some 2) ∧ u.remaining = 16777220 := by
  have hduration : endless.duration = 16777220 := by decide +kernel
  have hremaining : endless.started.remaining = 16777220 := by decide +kernel
  have hstep : endless.started.step = (2, endless.started) := by decide +kernel
  have hrun : ∀ t, (endless.started.run t).2 = endless.started := by
    intro t
    have hrun : endless.started.run t = feed (fun u _ => u.step) endless.started (silence t) :=
      if_neg (by decide +kernel)
    have hfixed : feed (fun u _ => u.step) endless.started (silence t) =
        (Array.replicate (silence t).size 2, endless.started) := feed_of_fixed fun _ => hstep
    rw [hrun, hfixed]
  refine ⟨proper_endless, hduration, fun k => ?_⟩
  obtain ⟨outs, samples, hcompute, hsamples, hsignal⟩ := proper_endless.computes k
  refine ⟨_, outs, samples, hcompute, hsamples, ?_, ?_⟩
  · intro i hi
    rw [hsignal i (Nat.zero_le i) hi, Ramp.signal, hrun, hstep]
  · rw [hrun, hremaining]

end RampRun
end Patchbay
