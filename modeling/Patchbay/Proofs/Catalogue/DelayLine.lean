import Patchbay.Catalogue
import Patchbay.Proofs.Engine.Splitting

/-!
# Delay lines

A delay line is a ring: from its head on it holds the latest samples of the signal that is written to
it, oldest first (`Store.Holds`). A writer keeps that so, sample by sample; a reader counts back from
the head. Hence what a reader sends is the signal, late by the delay that it was asked for or by as
much as the line holds behind a block, and by one more block if the reader's step comes before the
writer's (`DelayRun.delays`).
-/

namespace Patchbay

open Catalogue

/-- So many samples of a signal, from a time on. -/
def excerpt (x : ℤ → Float32) (start : ℤ) (length : Nat) : Samples :=
  Array.ofFn fun i : Fin length => x (start + i)

section Excerpts

variable {x : ℤ → Float32} {start : ℤ} {length : Nat}

@[simp]
theorem size_excerpt : (excerpt x start length).size = length := by simp [excerpt]

theorem getElem?_excerpt {i : Nat} (h : i < length) :
    (excerpt x start length)[i]? = some (x (start + i)) := by
  simp [excerpt, h]

theorem excerpt_succ : excerpt x start (length + 1) =
    (excerpt x start length).push (x (start + length)) := by
  simp [excerpt, Array.ofFn_succ]

theorem eq_excerpt {xs : Samples} (hsize : xs.size = length)
    (h : ∀ i < length, xs[i]? = some (x (start + i))) : xs = excerpt x start length := by
  refine Array.ext_getElem? fun i => ?_
  by_cases hi : i < length
  · rw [h i hi, getElem?_excerpt hi]
  · rw [Array.getElem?_eq_none (by omega), Array.getElem?_eq_none (by simpa using hi)]

/-- A part of an excerpt is one. -/
theorem slice_excerpt {first last : Nat} (hle : first ≤ last) (hlast : last ≤ length) :
    slice (excerpt x start length) first last =
      .ok (excerpt x (start + first) (last - first)) := by
  rw [slice, if_pos ⟨hle, by simpa using hlast⟩]
  refine congrArg Except.ok (eq_excerpt (by simp; omega) fun i hi => ?_)
  rw [Array.getElem?_extract, if_pos (by simp; omega), getElem?_excerpt (by omega)]
  push_cast
  rw [add_assoc]

end Excerpts

/-- What is at an offset after a range was overwritten. -/
theorem getElem?_overwrite (xs : Samples) (first : Nat) (ys : Samples) (i : Nat)
    (h : first + ys.size ≤ xs.size) : (overwrite xs first ys)[i]? =
      if first ≤ i ∧ i < first + ys.size then ys[i - first]? else xs[i]? := by
  have hlist : ∀ (l : List Float32) (first : Nat) (zs : Samples), first + l.length ≤ zs.size →
      (l.foldl (fun (s : Nat × Samples) y => (s.1 + 1, s.2.setIfInBounds s.1 y)) (first, zs)).2[i]? =
        if first ≤ i ∧ i < first + l.length then l[i - first]? else zs[i]? := by
    intro l
    induction l with
    | nil =>
      intro first zs _
      rw [if_neg (by simp)]
      rfl
    | cons y l ih =>
      intro first zs hle
      rw [List.length_cons] at hle
      rw [List.foldl_cons, ih (first + 1) (zs.setIfInBounds first y) (by simp; omega),
        List.length_cons]
      by_cases hi : i = first
      · subst hi
        rw [if_neg (by omega), if_pos (by omega), Nat.sub_self, Array.getElem?_setIfInBounds_self_of_lt]
        · rfl
        · omega
      · by_cases hin : first + 1 ≤ i ∧ i < first + 1 + l.length
        · rw [if_pos hin, if_pos (by omega), show i - first = i - (first + 1) + 1 by omega,
            List.getElem?_cons_succ]
        · rw [if_neg hin, if_neg (by omega), Array.getElem?_setIfInBounds_ne (by omega)]
  have := hlist ys.toList first xs (by simpa using h)
  simpa [overwrite, ← Array.foldl_toList] using this

/-! ## The ring -/

/-- That a line of a length holds the samples of a signal before a time: from its head on, oldest
first. -/
structure Store.Holds (line : Store) (length : Nat) (x : ℤ → Float32) (now : ℤ) : Prop where
  size : line.samples.size = length
  head : line.head < length
  samples : ∀ j < length, line.samples[(line.head + j) % length]? = some (x (now - length + j))

namespace Store.Holds

variable {line : Store} {length : Nat} {x : ℤ → Float32} {now : ℤ}

/-- A silent line holds the silence before a signal. -/
theorem of_silence (hsamples : line.samples = silence length) (hhead : line.head < length)
    (hx : ∀ t < 0, x t = 0) : line.Holds length x 0 where
  size := by simp [hsamples, silence]
  head := hhead
  samples j hj := by
    have hlt : (line.head + j) % length < length := Nat.mod_lt _ (by omega)
    rw [hx _ (by omega), hsamples, silence, Array.getElem?_replicate, if_pos hlt]

/-- The oldest sample makes room for the newest. -/
theorem write (h : line.Holds length x now) :
    (DelayWriter.write line (x now)).Holds length x (now + 1) where
  size := by simpa [DelayWriter.write] using h.size
  head := by
    have hlen : line.length = length := h.size
    simp only [DelayWriter.write, hlen]
    exact Nat.mod_lt _ (by have := h.head; omega)
  samples j hj := by
    have hlen : line.length = length := h.size
    have hhead := h.head
    simp only [DelayWriter.write, hlen]
    have hindex : ((line.head + 1) % length + j) % length = (line.head + (j + 1)) % length := by
      rw [Nat.mod_add_mod, show line.head + 1 + j = line.head + (j + 1) by omega]
    rw [hindex]
    by_cases hlast : j + 1 = length
    · -- all the way round lies the sample that was just written
      rw [hlast, Nat.add_mod_right, Nat.mod_eq_of_lt hhead,
        Array.getElem?_setIfInBounds_self_of_lt (by rw [h.size]; exact hhead)]
      congr 2
      omega
    · have hne : (line.head + (j + 1)) % length ≠ line.head := by
        intro he
        by_cases hround : line.head + (j + 1) < length
        · rw [Nat.mod_eq_of_lt hround] at he
          omega
        · rw [Nat.mod_eq_sub_mod (by omega), Nat.mod_eq_of_lt (by omega)] at he
          omega
      rw [Array.getElem?_setIfInBounds_ne (Ne.symm hne), h.samples (j + 1) (by omega)]
      congr 2
      push_cast
      ring

theorem foldl_write (h : line.Holds length x now) (count : Nat) :
    ((excerpt x now count).foldl DelayWriter.write line).Holds length x (now + count) := by
  induction count with
  | zero => simpa [excerpt] using h
  | succ count ih =>
    rw [excerpt_succ, Array.foldl_push, Nat.cast_succ, ← add_assoc]
    exact ih.write

/-- Counting back from the head, around the end of the line. -/
theorem behind (h : line.Holds length x now) {back i : Nat} (hback : back ≤ length) (hi : i < back) :
    line.samples[(line.head + 2 * length - back + i) % length]? = some (x (now - back + i)) := by
  have hindex : (line.head + 2 * length - back + i) % length =
      (line.head + (length - back + i)) % length := by
    rw [show line.head + 2 * length - back + i = line.head + (length - back + i) + length by omega,
      Nat.add_mod_right]
  rw [hindex, h.samples _ (by omega)]
  congr 2
  push_cast [hback]
  ring

/-- A row of samples, counted back from the head. -/
theorem tap (h : line.Holds length x now) {back first count : Nat} (hback : back ≤ length)
    (hcount : first + count ≤ back) :
    (Array.range' first count).map (fun i =>
        (line.samples[(line.head + 2 * line.length - back + i) % line.length]?).getD 0) =
      excerpt x (now - back + first) count := by
  have hlen : line.length = length := h.size
  refine eq_excerpt (by simp) fun i hi => ?_
  have hrange : (Array.range' first count)[i]? = some (first + i) := by
    rw [Array.getElem?_range', if_pos hi, Nat.one_mul]
  rw [Array.getElem?_map, hrange, Option.map_some, hlen, h.behind hback (by omega),
    Option.getD_some]
  push_cast
  rw [add_assoc]

end Store.Holds

/-! ## Pieces -/

/-- What a unit becomes and writes when it computes some pieces of its block. -/
def inPieces {U : Type} [Device U] (unit : U) (ins : Inputs) (outs : Outputs)
    (pieces : List (Nat × Nat)) : Except Fault (U × Outputs) :=
  pieces.foldlM (fun (unit, outs) (first, last) => Device.process unit ins outs first last)
    (unit, outs)

section Pieces

variable {line : Store} {length size : Nat} {x : ℤ → Float32} {start now : ℤ} {ins : Inputs}
  {outs : Outputs} {first last : Nat}

/-- A writer puts a piece of its signal behind what the line holds. -/
theorem process_delayWriter (w : DelayWriter) (hin : ins.inlet 0 = .ok (excerpt x start size))
    (hstore : outs.store = some line) (h : line.Holds length x (start + first)) (hle : first ≤ last)
    (hlast : last ≤ size) :
    ∃ line', Device.process (CatalogueUnit.delayWriter w) ins outs first last =
        .ok (.delayWriter w, { outs with store := some line' }) ∧
      line'.Holds length x (start + last) := by
  have hlen : line.length = length := h.size
  have hhead := h.head
  refine ⟨(excerpt x (start + first) (last - first)).foldl DelayWriter.write line,
    bind_eq_ok.2 ⟨{ outs with store := some _ }, bind_eq_ok.2 ⟨_, hin, bind_eq_ok.2
      ⟨_, slice_excerpt hle hlast, ?_⟩⟩, rfl⟩, ?_⟩
  · rw [hstore]
    dsimp only
    rw [if_neg (by omega), if_neg (by omega)]
    rfl
  · have := h.foldl_write (last - first)
    rwa [add_assoc, ← Nat.cast_add, Nat.add_sub_cancel' hle] at this

theorem pieces_delayWriter (w : DelayWriter) (hin : ins.inlet 0 = .ok (excerpt x start size))
    {pieces : List (Nat × Nat)} (htiles : Tiles first size pieces) (hstore : outs.store = some line)
    (h : line.Holds length x (start + first)) :
    ∃ line', inPieces (.delayWriter w) ins outs pieces =
        .ok (CatalogueUnit.delayWriter w, { outs with store := some line' }) ∧
      line'.Holds length x (start + size) := by
  induction pieces generalizing first outs line with
  | nil =>
    cases htiles
    exact ⟨line, by rw [← hstore]; rfl, h⟩
  | cons piece pieces ih =>
    obtain ⟨rfl, hle, hrest⟩ := htiles
    obtain ⟨line₁, hp, h₁⟩ := process_delayWriter w hin hstore h hle hrest.le
    have hstore₁ : { outs with store := some line₁ }.store = some line₁ := rfl
    obtain ⟨line', hps, h'⟩ := ih hrest hstore₁ h₁
    exact ⟨line', bind_eq_ok.2 ⟨_, hp, hps⟩, h'⟩

/-- That what has been computed at the first outlet is part of a signal. -/
def Outputs.Sends (outs : Outputs) (size : Nat) (y : ℤ → Float32) (start : ℤ) (last : Nat) : Prop :=
  ∃ samples, outs.outlets[0]? = some samples ∧ samples.size = size ∧
    ∀ i < last, samples[i]? = some (y (start + i))

/-- A piece of a signal is sent on. -/
theorem Outputs.Sends.setOutlet {y : ℤ → Float32} (h : outs.Sends size y start first)
    (hle : first ≤ last) (hlast : last ≤ size) :
    ∃ outs', outs.setOutlet 0 first last (excerpt y (start + first) (last - first)) = .ok outs' ∧
      outs'.store = outs.store ∧ outs'.Sends size y start last := by
  obtain ⟨samples, hout, hsize, hdone⟩ := h
  have hslice : slice samples first last = .ok (samples.extract first last) :=
    if_pos ⟨hle, hsize ▸ hlast⟩
  let written := overwrite samples first (excerpt y (start + first) (last - first))
  refine ⟨{ outs with outlets := outs.outlets.setIfInBounds 0 written }, ?_, rfl, written, ?_, ?_, ?_⟩
  · rw [Outputs.setOutlet, Outputs.modifyOutlet, Outputs.outlet, hout]
    exact bind_eq_ok.2 ⟨_, rfl, bind_eq_ok.2 ⟨_, hslice, rfl⟩⟩
  · exact Array.getElem?_setIfInBounds_self_of_lt (Array.getElem?_eq_some_iff.1 hout).1
  · rw [size_overwrite, hsize]
  · intro i hi
    rw [getElem?_overwrite _ _ _ _ (by simp; omega), size_excerpt]
    split
    · next hin =>
      rw [getElem?_excerpt (by omega), add_assoc, ← Nat.cast_add, Nat.add_sub_cancel' hin.1]
    · next hnot => exact hdone i (by omega)

/-- What a reader asks of its line, when the line holds a block and its length is one of an array. -/
theorem Catalogue.DelayReader.process_eq (r : DelayReader) (hstore : outs.store = some line)
    (hhead : line.head < line.length)
    (hfits : ins.blockSize ≤ line.length) (hroom : line.length * sampleBytes < addressable)
    (hlast : last ≤ ins.blockSize) :
    r.process ins outs first last = outs.setOutlet 0 first last
      ((Array.range' first (last - first)).map fun i =>
        (line.samples[(line.head + 2 * line.length -
          (ins.blockSize + min r.delay (line.length - ins.blockSize)) + i) % line.length]?).getD 0) := by
  have hword : 4 * line.length < wordSize := by
    simp only [sampleBytes, addressable] at hroom
    simp only [wordSize]
    omega
  have hline : outs.store.getD {} = line := by rw [hstore, Option.getD_some]
  unfold DelayReader.process
  rw [hline]
  dsimp only
  rw [if_neg (by omega)]
  generalize hd : min r.delay (line.length - ins.blockSize) = d
  have hback : ins.blockSize + d ≤ line.length := by omega
  -- no index under- or overflows
  have hfar : checkedMul 2 line.length = .ok (2 * line.length) := if_pos (by omega)
  have hadd : checkedAdd line.head (2 * line.length) = .ok (line.head + 2 * line.length) :=
    if_pos (by omega)
  have hsub : checkedSub (line.head + 2 * line.length) (ins.blockSize + d) =
      .ok (line.head + 2 * line.length - (ins.blockSize + d)) := if_pos (by omega)
  have hend : checkedAdd (line.head + 2 * line.length - (ins.blockSize + d)) (last - 1) =
      .ok (line.head + 2 * line.length - (ins.blockSize + d) + (last - 1)) := if_pos (by omega)
  rw [hfar, ok_bind, hadd, ok_bind, hsub, ok_bind]
  split
  · rw [hend, ok_bind]
  · rfl

/-- A reader sends on a piece of the signal that the line holds, counted back from its head. -/
theorem process_delayReader (r : DelayReader) (hblock : ins.blockSize = size)
    (hstore : outs.store = some line) (h : line.Holds length x now) (hfits : size ≤ length)
    (hroom : length * sampleBytes < addressable) (hle : first ≤ last) (hlast : last ≤ size)
    (hsends : outs.Sends size x (now - (size + min r.delay (length - size) : ℕ)) first) :
    ∃ outs', Device.process (CatalogueUnit.delayReader r) ins outs first last =
        .ok (.delayReader r, outs') ∧ outs'.store = some line ∧
      outs'.Sends size x (now - (size + min r.delay (length - size) : ℕ)) last := by
  have hlen : line.length = length := h.size
  obtain ⟨outs', hset, hstore', hsends'⟩ := hsends.setOutlet hle hlast
  refine ⟨outs', bind_eq_ok.2 ⟨outs', ?_, rfl⟩, hstore'.trans hstore, hsends'⟩
  rw [r.process_eq hstore (hlen ▸ h.head) (by omega) (hlen ▸ hroom) (by omega),
    h.tap (by omega) (by omega), hlen, hblock]
  exact hset

theorem pieces_delayReader (r : DelayReader) (hblock : ins.blockSize = size)
    (hfits : size ≤ length) (hroom : length * sampleBytes < addressable)
    {pieces : List (Nat × Nat)} (htiles : Tiles first size pieces) (hstore : outs.store = some line)
    (h : line.Holds length x now)
    (hsends : outs.Sends size x (now - (size + min r.delay (length - size) : ℕ)) first) :
    ∃ outs', inPieces (.delayReader r) ins outs pieces = .ok (CatalogueUnit.delayReader r, outs') ∧
      outs'.store = some line ∧
      outs'.Sends size x (now - (size + min r.delay (length - size) : ℕ)) size := by
  induction pieces generalizing first outs with
  | nil =>
    cases htiles
    exact ⟨outs, rfl, hstore, hsends⟩
  | cons piece pieces ih =>
    obtain ⟨rfl, hle, hrest⟩ := htiles
    obtain ⟨outs₁, hp, hstore₁, hsends₁⟩ := process_delayReader r hblock hstore h hfits hroom
      hle hrest.le hsends
    obtain ⟨outs', hps, hstore', hsends'⟩ := ih hrest hstore₁ hsends₁
    exact ⟨outs', bind_eq_ok.2 ⟨_, hp, hps⟩, hstore', hsends'⟩

end Pieces

/-! ## Runs of blocks -/

/-- A delay line over a row of blocks: the signal that is written to it, and what its writer and a
reader find in each block. -/
structure DelayRun where
  blockSize : Nat
  length : Nat
  signal : ℤ → Float32
  writer : DelayWriter
  reader : DelayReader
  /-- The line before the first block. -/
  line : Store
  writerReads : Nat → Inputs
  writerOuts : Nat → Outputs
  /-- The pieces in which the writer computes each block. -/
  writerPieces : Nat → List (Nat × Nat)
  readerReads : Nat → Inputs
  readerOuts : Nat → Outputs
  readerPieces : Nat → List (Nat × Nat)

namespace DelayRun

variable (run : DelayRun)

/-- When a block starts, in samples. -/
def time (k : Nat) : ℤ := (k * run.blockSize : ℕ)

/-- The delay that the reader can have: what it was asked for, and no more than what the line holds
behind a block. -/
def delay : Nat := min run.reader.delay (run.length - run.blockSize)

/-- The line after some blocks. -/
def lineAfter : Nat → Except Fault Store
  | 0 => .ok run.line
  | k + 1 => do
    let line ← lineAfter k
    let (_, outs) ← inPieces (CatalogueUnit.delayWriter run.writer) (run.writerReads k)
      { run.writerOuts k with store := some line } (run.writerPieces k)
    return outs.store.getD line

/-- What the reader becomes and writes in a block when it finds the line so. -/
def read (k : Nat) (line : Store) : Except Fault (CatalogueUnit × Outputs) :=
  inPieces (.delayReader run.reader) (run.readerReads k)
    { run.readerOuts k with store := some line } (run.readerPieces k)

/-- That a run is one of an engine: a block fits into the line, which is silent at first, the writer
finds the signal at its inlet, and the pieces of each block are the whole block. -/
structure Proper : Prop where
  positive : 1 ≤ run.blockSize
  fits : run.blockSize ≤ run.length
  room : run.length * sampleBytes < addressable
  early : ∀ t < 0, run.signal t = 0
  fresh : run.line.samples = silence run.length
  head : run.line.head < run.length
  input : ∀ k, (run.writerReads k).inlet 0 =
    .ok (excerpt run.signal (run.time k) run.blockSize)
  writerTiles : ∀ k, Tiles 0 run.blockSize (run.writerPieces k)
  readerBlock : ∀ k, (run.readerReads k).blockSize = run.blockSize
  outlet : ∀ k, ∃ samples, (run.readerOuts k).outlets[0]? = some samples ∧
    samples.size = run.blockSize
  readerTiles : ∀ k, Tiles 0 run.blockSize (run.readerPieces k)

/-- That the reader sends the signal of a block, late by a number of samples, and leaves the line as
it is. -/
def Late (k : Nat) (line : Store) (late : Nat) : Prop :=
  ∃ outs, run.read k line = .ok (.delayReader run.reader, outs) ∧ outs.store = some line ∧
    outs.outlet 0 = .ok (excerpt run.signal (run.time k - late) run.blockSize)

variable {run}

namespace Proper

variable (h : run.Proper)
include h

theorem exists_lineAfter (k : Nat) :
    ∃ line, run.lineAfter k = .ok line ∧ line.Holds run.length run.signal (run.time k) := by
  induction k with
  | zero =>
    refine ⟨run.line, rfl, ?_⟩
    simpa [time] using Store.Holds.of_silence h.fresh h.head h.early
  | succ k ih =>
    obtain ⟨line, hline, hholds⟩ := ih
    have hstore : { run.writerOuts k with store := some line }.store = some line := rfl
    obtain ⟨line', hpieces, hholds'⟩ := pieces_delayWriter run.writer (h.input k)
      (h.writerTiles k) hstore (by simpa using hholds)
    refine ⟨line', bind_eq_ok.2 ⟨_, hline, bind_eq_ok.2 ⟨_, hpieces, rfl⟩⟩, ?_⟩
    rwa [time, Nat.succ_mul, Nat.cast_add]

/-- What a reader sends lies behind what the line holds by a block and the delay. -/
theorem late {line : Store} {now : ℤ} (hline : line.Holds run.length run.signal now) (k : Nat) :
    ∃ outs, run.read k line = .ok (.delayReader run.reader, outs) ∧ outs.store = some line ∧
      outs.outlet 0 =
        .ok (excerpt run.signal (now - (run.blockSize + run.delay : ℕ)) run.blockSize) := by
  obtain ⟨samples, hout, hsize⟩ := h.outlet k
  have hlined : { run.readerOuts k with store := some line }.store = some line := rfl
  obtain ⟨outs, hread, hstore, samples', hout', hsize', hall⟩ := pieces_delayReader run.reader
    (h.readerBlock k) h.fits h.room (h.readerTiles k) hlined hline
    ⟨samples, hout, hsize, fun i hi => by omega⟩
  refine ⟨outs, hread, hstore, ?_⟩
  rw [Outputs.outlet, hout', eq_excerpt hsize' hall]
  rfl

end Proper

/-- In every block the reader sends what was written as many samples ago as it was asked to wait, or as
the line can hold behind a block, if its step comes after the writer's; and one block before that if
its step comes first. No piece of either unit meets a fault. -/
theorem delays (h : run.Proper) (k : Nat) :
    ∃ before after, run.lineAfter k = .ok before ∧ run.lineAfter (k + 1) = .ok after ∧
      run.Late k after run.delay ∧ run.Late k before (run.delay + run.blockSize) := by
  obtain ⟨before, hbefore, hholds⟩ := h.exists_lineAfter k
  obtain ⟨after, hafter, hholds'⟩ := h.exists_lineAfter (k + 1)
  refine ⟨before, after, hbefore, hafter, ?_, ?_⟩
  · have := h.late hholds' k
    rwa [show run.time (k + 1) - (run.blockSize + run.delay : ℕ) = run.time k - run.delay by
      simp only [time]; push_cast; ring] at this
  · have := h.late hholds k
    rwa [Nat.add_comm] at this

/-- A run that counts samples, through a line that is no whole number of blocks long. The writer is
interrupted in each block. -/
def counting : DelayRun where
  blockSize := 4
  length := 6
  signal t := if 0 ≤ t then Float32.ofNat t.toNat else 0
  writer := ⟨.ofString "line", 6⟩
  reader := ⟨.ofString "line", 1⟩
  line := { samples := silence 6, head := 5 }
  writerReads k :=
    { pool := { blockSize := 4
                buffers := #[excerpt (fun t => if 0 ≤ t then Float32.ofNat t.toNat else 0)
                  (k * 4 : ℕ) 4] }
      inlets := #[.pooled 0]
      hostInput := #[]
      blockSize := 4 }
  writerOuts _ := { outlets := #[], hostOutput := #[], blockSize := 4 }
  writerPieces _ := [(0, 1), (1, 4)]
  readerReads _ := { pool := { blockSize := 4 }, inlets := #[], hostInput := #[], blockSize := 4 }
  readerOuts _ := { outlets := #[silence 4], hostOutput := #[], blockSize := 4 }
  readerPieces _ := [(0, 3), (3, 4)]

theorem proper_counting : counting.Proper where
  positive := by decide
  fits := by decide
  room := by decide
  early t ht := if_neg (Int.not_le.2 ht)
  fresh := rfl
  head := by decide
  input _ := rfl
  writerTiles _ := ⟨rfl, by decide, rfl, by decide, rfl⟩
  readerBlock _ := rfl
  outlet _ := ⟨silence 4, rfl, by decide⟩
  readerTiles _ := ⟨rfl, by decide, rfl, by decide, rfl⟩

/-- The third block of a line that is read one sample late, and five. -/
theorem delays_counting : counting.Proper ∧ counting.delay = 1 ∧
    ∃ before after, counting.lineAfter 2 = .ok before ∧ counting.lineAfter 3 = .ok after ∧
      counting.Late 2 after 1 ∧ counting.Late 2 before 5 :=
  ⟨proper_counting, by decide, delays proper_counting 2⟩

end DelayRun
end Patchbay
