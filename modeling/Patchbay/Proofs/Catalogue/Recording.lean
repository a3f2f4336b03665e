import Patchbay.Proofs.Catalogue.DelayLine

/-!
# Recording into a table

What happens to a unit in its steps comes as a row of beats: pieces of the signal at its inlet, and
messages. A unit that records goes through them with its table (`Tape.follow`). From a bang on, each
sample that is heard goes into the table once and in order, until the table is full or a message says
otherwise (`Tape.took_of_bang`); after a stop nothing does (`Tape.frozen_of_stop`). How the signal is cut
into pieces does not matter, for what has been taken is said by the whole signal since the bang (`Took`).
-/

namespace Patchbay

open Catalogue

/-- What happens to a unit: it hears a piece of a signal, or is told something. -/
inductive Beat where
  | heard (samples : Samples)
  | told (message : Message)
deriving DecidableEq

namespace Beat

def samples : Beat → Samples
  | heard samples => samples
  | told _ => #[]

/-- The signal that is heard in a row of beats. -/
def signal : List Beat → Samples
  | [] => #[]
  | b :: beats => b.samples ++ signal beats

/-- That a beat does not make a recording start. -/
def StartsNothing : Beat → Prop
  | heard _ => True
  | told message => message.isBangAt 0 = false

/-- That a beat makes a recording neither start nor end. -/
def IsQuiet : Beat → Prop
  | heard _ => True
  | told message => message.isBangAt 0 = false ∧ message.hasSelector "stop" = false

theorem signal_append (beats beats' : List Beat) :
    signal (beats ++ beats') = signal beats ++ signal beats' := by
  induction beats with
  | nil => exact (Array.empty_append ..).symm
  | cons b beats ih =>
    rw [List.cons_append, signal, ih, signal, Array.append_assoc]

/-- The samples of some beats in the signal that is heard in all. -/
theorem getElem?_signal (before beats rest : List Beat) {i : Nat} (hi : i < (signal beats).size) :
    (signal (before ++ beats ++ rest))[(signal before).size + i]? = (signal beats)[i]? := by
  rw [signal_append, signal_append, Array.append_assoc, Array.getElem?_append_right (by omega),
    Nat.add_sub_cancel_left, Array.getElem?_append_left hi]

end Beat

open Beat

/-- A unit that records, and its table. -/
structure Tape where
  writer : TableWriter
  table : Samples

namespace Tape

/-- A recording goes on for a beat. -/
def follow (t : Tape) : Beat → Tape
  | .told message => { t with writer := t.writer.receive message }
  | .heard samples =>
    match t.writer.position with
    | none => t
    | some start =>
      let count := min samples.size (t.table.size - start)
      let next := start + count
      { writer := { t.writer with position := if next < t.table.size then some next else none }
        table := overwrite t.table start (samples.extract 0 count) }

/-- That so much of a signal has been taken into a table since a recording was started: all of it, or as
much as there is room for. -/
structure Took (old signal : Samples) (t : Tape) : Prop where
  position : t.writer.position = if signal.size < old.size then some signal.size else none
  size : t.table.size = old.size
  taken : ∀ i < min signal.size old.size, t.table[i]? = signal[i]?
  kept : ∀ i, min signal.size old.size ≤ i → t.table[i]? = old[i]?

variable {t : Tape} {old signal : Samples}

@[simp]
theorem name_follow (t : Tape) (b : Beat) : (t.follow b).writer.name = t.writer.name := by
  cases b with
  | told message =>
    show (t.writer.receive message).name = _
    unfold TableWriter.receive
    split
    · rfl
    · split <;> rfl
  | heard samples =>
    unfold follow
    cases t.writer.position <;> rfl

@[simp]
theorem size_follow (t : Tape) (b : Beat) : (t.follow b).table.size = t.table.size := by
  cases b with
  | told message => rfl
  | heard samples =>
    unfold follow
    cases t.writer.position with
    | none => rfl
    | some start => exact size_overwrite ..

theorem name_foldl_follow (t : Tape) (beats : List Beat) :
    (beats.foldl follow t).writer.name = t.writer.name := by
  induction beats generalizing t with
  | nil => rfl
  | cons b beats ih => rw [List.foldl_cons, ih, name_follow]

theorem size_foldl_follow (t : Tape) (beats : List Beat) :
    (beats.foldl follow t).table.size = t.table.size := by
  induction beats generalizing t with
  | nil => rfl
  | cons b beats ih => rw [List.foldl_cons, ih, size_follow]

/-- A bang starts at the front of the table. -/
theorem took_bang (hpos : 0 < t.table.size) {bang : Message} (hbang : bang.isBangAt 0 = true) :
    Took t.table #[] (t.follow (.told bang)) where
  position := by
    rw [Array.size_empty, if_pos hpos]
    show (t.writer.receive bang).position = _
    rw [TableWriter.receive, if_pos hbang]
  size := rfl
  taken i hi := by
    rw [Array.size_empty] at hi
    omega
  kept _ _ := rfl

/-- What is heard goes behind what has been taken. -/
theorem Took.heard (h : Took old signal t) (samples : Samples) :
    Took old (signal ++ samples) (t.follow (.heard samples)) := by
  have hposition := h.position
  have hsize := h.size
  by_cases hfull : signal.size < old.size
  · rw [if_pos hfull] at hposition
    -- the piece fits, or as much of it as there is room for
    obtain ⟨count, hcount⟩ : ∃ count, count = min samples.size (old.size - signal.size) := ⟨_, rfl⟩
    have hextract : (samples.extract 0 count).size = count := by
      rw [Array.size_extract]
      omega
    have hfollow : t.follow (.heard samples) =
        { writer := { t.writer with
            position := if signal.size + count < old.size then some (signal.size + count) else none }
          table := overwrite t.table signal.size (samples.extract 0 count) } := by
      unfold follow
      rw [hposition]
      simp only [hsize, ← hcount]
    have hget : ∀ i, (overwrite t.table signal.size (samples.extract 0 count))[i]? =
        if signal.size ≤ i ∧ i < signal.size + count then samples[i - signal.size]?
        else t.table[i]? := by
      intro i
      rw [getElem?_overwrite _ _ _ _ (by omega), hextract]
      split
      · rw [Array.getElem?_extract, if_pos (by omega), Nat.zero_add]
      · rfl
    rw [hfollow]
    refine ⟨?_, ?_, fun i hi => ?_, fun i hi => ?_⟩
    · rw [Array.size_append]
      by_cases hroom : signal.size + samples.size < old.size
      · obtain rfl : count = samples.size := by omega
        rfl
      · rw [if_neg hroom]
        exact if_neg (by omega)
    · exact (size_overwrite ..).trans hsize
    · rw [Array.size_append] at hi
      rw [hget, Array.getElem?_append]
      by_cases hbefore : i < signal.size
      · rw [if_neg (by omega), if_pos hbefore, h.taken i (by omega)]
      · rw [if_pos (by omega), if_neg hbefore]
    · rw [Array.size_append] at hi
      rw [hget, if_neg (by omega), h.kept i (by omega)]
  · rw [if_neg hfull] at hposition
    have hfollow : t.follow (.heard samples) = t := by
      unfold follow
      rw [hposition]
    rw [hfollow]
    refine ⟨?_, hsize, fun i hi => ?_, fun i hi => ?_⟩
    · rw [hposition, Array.size_append, if_neg (by omega)]
    · rw [h.taken i (by omega), Array.getElem?_append_left (by omega)]
    · rw [Array.size_append] at hi
      exact h.kept i (by omega)

/-- A quiet message changes nothing. -/
theorem follow_told_of_quiet {message : Message} (h : (Beat.told message).IsQuiet) :
    t.follow (.told message) = t := by
  obtain ⟨hbang, hstop⟩ := h
  have hreceive : t.writer.receive message = t.writer := by
    rw [TableWriter.receive, if_neg (by simp [hbang]), if_neg (by simp [hstop])]
  show { t with writer := t.writer.receive message } = t
  rw [hreceive]

/-- A recording that nothing starts anew or ends takes all that is heard. -/
theorem Took.foldl (h : Took old signal t) {beats : List Beat} (hquiet : ∀ b ∈ beats, b.IsQuiet) :
    Took old (signal ++ Beat.signal beats) (beats.foldl follow t) := by
  induction beats generalizing signal t with
  | nil =>
    rw [Beat.signal, Array.append_empty]
    exact h
  | cons b beats ih =>
    obtain ⟨hb, hbeats⟩ := List.forall_mem_cons.1 hquiet
    rw [List.foldl_cons, Beat.signal, ← Array.append_assoc]
    apply ih _ hbeats
    cases b with
    | heard samples => exact h.heard samples
    | told message =>
      rw [follow_told_of_quiet hb]
      show Took old (signal ++ #[]) t
      rw [Array.append_empty]
      exact h

/-- From a bang on all that is heard is taken, whatever had been recorded before. -/
theorem took_of_bang (hpos : 0 < t.table.size) {bang : Message} (hbang : bang.isBangAt 0 = true)
    {beats : List Beat} (hquiet : ∀ b ∈ beats, b.IsQuiet) :
    Took t.table (Beat.signal beats) (beats.foldl follow (t.follow (.told bang))) := by
  have := (took_bang hpos hbang).foldl hquiet
  rwa [Array.empty_append] at this

/-- Nothing is taken while there is no recording. -/
theorem foldl_follow_of_idle (h : t.writer.position = none) {beats : List Beat}
    (hbeats : ∀ b ∈ beats, b.StartsNothing) :
    (beats.foldl follow t).table = t.table ∧ (beats.foldl follow t).writer.position = none := by
  induction beats generalizing t with
  | nil => exact ⟨rfl, h⟩
  | cons b beats ih =>
    obtain ⟨hb, hbeats⟩ := List.forall_mem_cons.1 hbeats
    have hidle : (t.follow b).table = t.table ∧ (t.follow b).writer.position = none := by
      cases b with
      | heard samples =>
        unfold follow
        rw [h]
        exact ⟨rfl, h⟩
      | told message =>
        refine ⟨rfl, ?_⟩
        show (t.writer.receive message).position = none
        rw [TableWriter.receive, if_neg (by simp [show message.isBangAt 0 = false from hb])]
        split
        · rfl
        · exact h
    rw [List.foldl_cons, ← hidle.1]
    exact ih hidle.2 hbeats

/-- After a stop the table stays as it is until the next bang. -/
theorem frozen_of_stop {stop : Message} (hbang : stop.isBangAt 0 = false)
    (hstop : stop.hasSelector "stop" = true) {beats : List Beat}
    (hbeats : ∀ b ∈ beats, b.StartsNothing) :
    (beats.foldl follow (t.follow (.told stop))).table = t.table ∧
      (beats.foldl follow (t.follow (.told stop))).writer.position = none := by
  have hidle : (t.follow (.told stop)).writer.position = none := by
    show (t.writer.receive stop).position = none
    rw [TableWriter.receive, if_neg (by simp [hbang]), if_pos hstop]
  exact foldl_follow_of_idle hidle hbeats

end Tape

/-- A piece of a block is a beat. -/
theorem process_tableWriter {w : TableWriter} {c : CatalogueUnit} {ins : Inputs} {outs outs' : Outputs}
    {store : Store} {xs : Samples} {first last : Nat} (hin : ins.inlet 0 = .ok xs)
    (hstore : outs.store = some store) (hle : first ≤ last) (hlast : last ≤ xs.size)
    (h : CatalogueUnit.process (.tableWriter w) ins outs first last = .ok (c, outs')) :
    c = .tableWriter (Tape.follow ⟨w, store.samples⟩ (.heard (xs.extract first last))).writer ∧
      outs' = { outs with store := some { store with
        samples := (Tape.follow ⟨w, store.samples⟩ (.heard (xs.extract first last))).table } } := by
  obtain ⟨⟨w', outs₁⟩, hprocess, h⟩ := bind_eq_ok.1 h
  cases h
  unfold TableWriter.process at hprocess
  unfold Tape.follow
  dsimp only
  cases hposition : w.position with
  | none =>
    rw [hposition] at hprocess
    cases hprocess
    refine ⟨rfl, ?_⟩
    dsimp only
    rw [← hstore]
  | some start =>
    rw [hposition] at hprocess
    obtain ⟨_, hinlet, hprocess⟩ := bind_eq_ok.1 hprocess
    cases hin.symm.trans hinlet
    have hslice : slice xs first last = .ok (xs.extract first last) := if_pos ⟨hle, hlast⟩
    rw [hslice, ok_bind, hstore] at hprocess
    dsimp only at hprocess
    split at hprocess
    · cases hprocess
    · cases hprocess
      exact ⟨rfl, rfl⟩

end Patchbay
