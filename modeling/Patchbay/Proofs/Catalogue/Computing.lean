import Patchbay.Proofs.Catalogue.DelayLine
import Patchbay.Proofs.Catalogue.Fitting
import Patchbay.Proofs.Names.Sizes

/-!
# Computing without faults

A unit reads and writes ranges of arrays that others keep. If each of them has the samples of a block,
its store is in order, and it fits that store and the settings (`CatalogueUnit.Fits`), it computes any
piece of its block without a fault, and leaves all that as it was (`process_succeeds`).
-/

namespace Patchbay

/-- That work ends without a fault, in a good result. -/
abbrev Succeeds {α : Type} (good : α → Prop) (x : Except Fault α) : Prop :=
  Outcome (fun _ => False) good x

/-- That there is room for a block of each kind. -/
structure Settings.HasRoom (s : Settings) : Prop where
  block : s.blockSize * sampleBytes < addressable
  input : s.inputLength * sampleBytes < addressable
  output : s.outputLength * sampleBytes < addressable

/-- That there is a block at every inlet. -/
structure Inputs.Ready (size : Nat) (ins : Inputs) : Prop where
  inlet : ∀ k, Succeeds (fun xs => xs.size = size) (ins.inlet k)
  silent : Succeeds (fun xs => xs.size = size) (ins.pool.get .zero)
  blockSize : ins.blockSize = size

/-- That there is a block at each of some outlets and on the bus, and a store of a length that is in
order, if any. -/
structure Outputs.Ready (size outlets : Nat) (room : Option Nat) (outs : Outputs) : Prop where
  outlet : ∀ k < outlets, ∃ xs, outs.outlets[k]? = some xs ∧ xs.size = size
  bus : ∀ bus, outs.bus = some bus → bus.size = size
  room : outs.store.map Store.length = room
  store : ∀ s, outs.store = some s → s.Proper
  blockSize : outs.blockSize = size

section Ranges

variable {size outlets first last : Nat} {room : Option Nat} {ins : Inputs} {outs : Outputs}

theorem slice_succeeds {xs : Samples} (hle : first ≤ last) (hlast : last ≤ xs.size) :
    Succeeds (fun ys => ys.size = last - first) (slice xs first last) := by
  rw [slice, if_pos ⟨hle, hlast⟩]
  show (xs.extract first last).size = last - first
  rw [Array.size_extract, Nat.min_eq_left hlast]

/-- A channel among so many that all of them fit into a word. -/
theorem channelRange_succeeds {channel channels : Nat} (hlt : channel < channels)
    (hword : channels * size < wordSize) :
    Succeeds (fun range => range = (channel * size, channel * size + size))
      (Inputs.channelRange size channel) := by
  have hnext : channel * size + size ≤ channels * size := by
    rw [← Nat.succ_mul]
    exact Nat.mul_le_mul_right size hlt
  have hmul : checkedMul channel size = .ok (channel * size) := if_pos (by omega)
  have hadd : checkedAdd (channel * size) size = .ok (channel * size + size) := if_pos (by omega)
  rw [Inputs.channelRange, hmul, ok_bind, hadd, ok_bind]
  rfl

/-- A piece is cut out of what is at an inlet. -/
theorem Inputs.Ready.piece (hins : ins.Ready size) (hle : first ≤ last) (hlast : last ≤ size) (k : Nat)
    {α : Type} {good : α → Prop} {f : Samples → Except Fault α}
    (hf : ∀ ys : Samples, ys.size = last - first → Succeeds good (f ys)) :
    Succeeds good (ins.inlet k >>= fun xs => slice xs first last >>= f) :=
  (hins.inlet k).bind fun _ hsize => (slice_succeeds hle (hsize ▸ hlast)).bind hf

theorem hostChannel_succeeds (hins : ins.Ready size) {channel channels : Nat}
    (hlt : channel < channels) (hword : channels * size < wordSize) :
    Succeeds (fun xs => xs.size = size) (ins.hostChannel channel) := by
  rw [Inputs.hostChannel, hins.blockSize]
  refine (channelRange_succeeds hlt hword).bind ?_
  rintro _ rfl
  dsimp only
  split
  · next hfits =>
    show (ins.hostInput.extract _ _).size = size
    rw [Array.size_extract]
    omega
  · exact hins.silent

namespace Outputs.Ready

/-- What is written to an outlet leaves it as long as it was. -/
theorem modifyOutlet (h : outs.Ready size outlets room) {k : Nat} (hk : k < outlets)
    (hle : first ≤ last) (hlast : last ≤ size) {f : Samples → Except Fault Samples}
    (hf : ∀ xs, Succeeds (fun _ => True) (f xs)) :
    Succeeds (Ready size outlets room) (outs.modifyOutlet k first last f) := by
  obtain ⟨samples, hout, hsize⟩ := h.outlet k hk
  rw [Outputs.modifyOutlet, Outputs.outlet, hout]
  refine (slice_succeeds hle (hsize ▸ hlast)).bind fun old _ => (hf old).bind fun ys _ => ?_
  refine ⟨fun j hj => ?_, h.bus, h.room, h.store, h.blockSize⟩
  by_cases hjk : k = j
  · subst hjk
    refine ⟨overwrite samples first ys, ?_, by rw [size_overwrite, hsize]⟩
    exact Array.getElem?_setIfInBounds_self_of_lt (Array.getElem?_eq_some_iff.1 hout).1
  · obtain ⟨xs, hxs, hlen⟩ := h.outlet j hj
    exact ⟨xs, by simpa [hjk] using hxs, hlen⟩

theorem setOutlet (h : outs.Ready size outlets room) {k : Nat} (hk : k < outlets)
    (hle : first ≤ last) (hlast : last ≤ size) (ys : Samples) :
    Succeeds (Ready size outlets room) (outs.setOutlet k first last ys) :=
  h.modifyOutlet hk hle hlast fun _ => ⟨⟩

theorem hostChannel? (h : outs.Ready size outlets room) {channel channels : Nat}
    (hlt : channel < channels) (hword : channels * size < wordSize) :
    Succeeds (fun start => ∀ first, start = some first → first + size ≤ outs.hostOutput.size)
      (outs.hostChannel? channel) := by
  rw [Outputs.hostChannel?, h.blockSize]
  refine (channelRange_succeeds hlt hword).bind ?_
  rintro _ rfl
  dsimp only
  split
  · next hfits =>
    rintro _ ⟨⟩
    exact hfits
  · rintro _ ⟨⟩

theorem addToHost (h : outs.Ready size outlets room) {channel channels : Nat}
    (hlt : channel < channels) (hword : channels * size < wordSize) (hle : first ≤ last)
    (hlast : last ≤ size) (ys : Samples) :
    Succeeds (Ready size outlets room) (outs.addToHost channel first last ys) := by
  rw [Outputs.addToHost]
  refine (h.hostChannel? hlt hword).bind fun start hstart => ?_
  cases start with
  | none => exact h
  | some start =>
    have hfits := hstart start rfl
    have hsize : (outs.hostOutput.extract start (start + outs.blockSize)).size = size := by
      rw [Array.size_extract, h.blockSize]
      omega
    refine (slice_succeeds hle (by omega)).bind fun old _ => ?_
    exact ⟨h.outlet, h.bus, h.room, h.store, h.blockSize⟩

/-- Writing channel after channel. -/
theorem foldlM (h : outs.Ready size outlets room) {channels : Nat}
    {f : Outputs → Nat → Except Fault Outputs}
    (hf : ∀ (outs : Outputs) channel, channel < channels → outs.Ready size outlets room →
      Succeeds (Ready size outlets room) (f outs channel)) :
    Succeeds (Ready size outlets room) ((List.range channels).foldlM f outs) := by
  refine Outcome.foldlM (fun _ => Ready size outlets room) h fun done channel rest outs hl hr => ?_
  have hmem : channel ∈ List.range channels := by simp [hl]
  exact hf outs channel (List.mem_range.1 hmem) hr

end Outputs.Ready
end Ranges

/-- Writing into a line leaves it as long as it was, and its head in it. -/
theorem Catalogue.DelayWriter.foldl_write (xs : Samples) {line : Store} (h : line.Proper)
    (hlength : line.length ≠ 0) :
    (xs.foldl write line).length = line.length ∧ (xs.foldl write line).Proper := by
  rw [← Array.foldl_toList]
  induction xs.toList generalizing line with
  | nil => exact ⟨rfl, h⟩
  | cons x xs ih =>
    have hsame : (write line x).length = line.length := Array.size_setIfInBounds
    have hhead : (line.head + 1) % line.length < line.length := Nat.mod_lt _ (by omega)
    have hwritten : (write line x).Proper := ⟨.inr (hsame ▸ hhead), hsame ▸ h.room⟩
    obtain ⟨hrest, hproper⟩ := ih hwritten (hsame ▸ hlength)
    exact ⟨hrest.trans hsame, hproper⟩

/-! ## Units -/

namespace Settings.HasRoom

variable {s : Settings} (hs : s.HasRoom)
include hs

theorem channels_in {channels : Nat} (h : channels ≤ s.inputChannels) :
    channels * s.blockSize < wordSize := by
  have hle : channels * s.blockSize ≤ s.inputLength := Nat.mul_le_mul_right _ h
  have hroom := hs.input
  simp only [sampleBytes, addressable] at hroom
  simp only [wordSize]
  omega

theorem channels_out {channels : Nat} (h : channels ≤ s.outputChannels) :
    channels * s.blockSize < wordSize := by
  have hle : channels * s.blockSize ≤ s.outputLength := Nat.mul_le_mul_right _ h
  have hroom := hs.output
  simp only [sampleBytes, addressable] at hroom
  simp only [wordSize]
  omega

end Settings.HasRoom

namespace CatalogueUnit

open Catalogue

section Process

variable {settings : Settings} {outlets first last : Nat} {room : Option Nat} {ins : Inputs}
  {outs : Outputs}

/-- That a piece is computed without a fault, and what the unit has become and what it leaves are in
order again. -/
abbrev Computes (settings : Settings) (outlets : Nat) (room : Option Nat)
    (x : Except Fault (CatalogueUnit × Outputs)) : Prop :=
  Succeeds (fun r => r.1.Fits settings room ∧ r.2.Ready settings.blockSize outlets room) x

variable (hins : ins.Ready settings.blockSize) (houts : outs.Ready settings.blockSize outlets room)
  (hle : first ≤ last) (hlast : last ≤ settings.blockSize)
include houts hle hlast

theorem ramp_succeeds (u : Ramp) (houtlets : 0 < outlets) :
    Succeeds (fun r => r.2.Ready settings.blockSize outlets room) (u.process outs first last) := by
  obtain ⟨samples, hout, hsize⟩ := houts.outlet 0 houtlets
  rw [Ramp.process, Outputs.outlet, hout]
  refine (slice_succeeds hle (hsize ▸ hlast)).bind fun old _ => ?_
  dsimp only
  split
  · exact (houts.setOutlet houtlets hle hlast _).bind fun _ h => h
  · exact (houts.setOutlet houtlets hle hlast _).bind fun _ h => h

theorem linkReader_succeeds (houtlets : 0 < outlets) :
    Succeeds (Outputs.Ready settings.blockSize outlets room) (LinkReader.process outs first last) := by
  unfold LinkReader.process
  cases hbus : outs.bus with
  | none => exact houts.setOutlet houtlets hle hlast _
  | some bus =>
    have hsize := houts.bus bus hbus
    exact (slice_succeeds hle (hsize ▸ hlast)).bind fun ys _ => houts.setOutlet houtlets hle hlast ys

theorem delayReader_succeeds (hins : ins.Ready settings.blockSize)
    (u : DelayReader) (houtlets : 0 < outlets) :
    Succeeds (Outputs.Ready settings.blockSize outlets room) (u.process ins outs first last) := by
  have hblock := hins.blockSize
  by_cases hsilent : (outs.store.getD {}).length < ins.blockSize ∨ (outs.store.getD {}).length = 0
  · unfold DelayReader.process
    dsimp only
    rw [if_pos hsilent]
    exact houts.setOutlet houtlets hle hlast _
  · cases hstore : outs.store with
    | none =>
      rw [hstore] at hsilent
      exact absurd (.inr rfl) hsilent
    | some line =>
      rw [hstore, Option.getD_some] at hsilent
      have hproper := houts.store line hstore
      have hhead := hproper.head
      rw [u.process_eq hstore (by omega) (by omega) hproper.room (by omega)]
      exact houts.setOutlet houtlets hle hlast _

include hins

theorem hostInput_succeeds (hs : settings.HasRoom) (u : HostInput)
    (hchannels : u.channels ≤ settings.inputChannels) (houtlets : u.channels ≤ outlets) :
    Succeeds (Outputs.Ready settings.blockSize outlets room) (u.process ins outs first last) := by
  refine houts.foldlM fun outs channel hlt hr => ?_
  refine (hostChannel_succeeds hins hlt (hs.channels_in hchannels)).bind fun xs hsize => ?_
  refine (slice_succeeds hle (hsize ▸ hlast)).bind fun ys _ => ?_
  exact hr.setOutlet (by omega) hle hlast ys

theorem hostOutput_succeeds (hs : settings.HasRoom) (u : HostOutput)
    (hchannels : u.channels ≤ settings.outputChannels) :
    Succeeds (Outputs.Ready settings.blockSize outlets room) (u.process ins outs first last) :=
  houts.foldlM fun _ channel hlt hr => hins.piece hle hlast channel fun ys _ =>
    hr.addToHost hlt (hs.channels_out hchannels) hle hlast ys

theorem oscillator_succeeds (u : Phase) (shape : Float32 → Float32) (houtlets : 0 < outlets) :
    Succeeds (fun r => r.2.Ready settings.blockSize outlets room)
      (u.process shape ins outs first last) :=
  hins.piece hle hlast 0 fun _ _ => (houts.setOutlet houtlets hle hlast _).bind fun _ h => h

theorem streamOperator_succeeds (u : StreamOperator) (houtlets : 0 < outlets) :
    Succeeds (Outputs.Ready settings.blockSize outlets room) (u.process ins outs first last) := by
  refine hins.piece hle hlast 0 fun left _ => ?_
  cases u.mode with
  | scalar => exact houts.setOutlet houtlets hle hlast _
  | signal => exact hins.piece hle hlast 1 fun right _ => houts.setOutlet houtlets hle hlast _

theorem linkWriter_succeeds (u : LinkWriter) :
    Succeeds (Outputs.Ready settings.blockSize outlets room) (u.process ins outs first last) := by
  refine hins.piece hle hlast 0 fun input _ => ?_
  cases hbus : outs.bus with
  | none => exact houts
  | some bus =>
    have hsize := houts.bus bus hbus
    refine (slice_succeeds hle (hsize ▸ hlast)).bind fun old _ => ?_
    refine ⟨houts.outlet, ?_, houts.room, houts.store, houts.blockSize⟩
    rintro _ ⟨⟩
    rw [size_overwrite, hsize]

theorem tableReader_succeeds (houtlets : 0 < outlets) :
    Succeeds (Outputs.Ready settings.blockSize outlets room)
      (TableReader.process ins outs first last) :=
  hins.piece hle hlast 0 fun _ _ => houts.setOutlet houtlets hle hlast _

/-- A recording goes on where it has come to, which lies in the table, and ends with the table. -/
theorem tableWriter_succeeds (u : TableWriter) (hfits : (tableWriter u).Fits settings room) :
    Succeeds (fun r => (tableWriter r.1).Fits settings room ∧
      r.2.Ready settings.blockSize outlets room) (u.process ins outs first last) := by
  unfold TableWriter.process
  cases hposition : u.position with
  | none => exact ⟨hfits, houts⟩
  | some start =>
    refine hins.piece hle hlast 0 fun input _ => ?_
    cases hstore : outs.store with
    | none =>
      refine ⟨?_, houts⟩
      rintro _ _ ⟨⟩
    | some store =>
      have hroom : some store.length = room := by rw [← houts.room, hstore, Option.map_some]
      have hstart : start ≤ store.length := hfits start store.length hposition hroom.symm
      dsimp only
      rw [if_neg (Nat.not_lt.2 hstart)]
      have hproper := houts.store store hstore
      have hkept : ∀ recorded : Samples, recorded.size = store.samples.size →
          store.Lengthens { store with samples := recorded } := fun recorded hsize =>
        ⟨hsize.ge, fun h => ⟨by rw [Store.length, hsize]; exact h.head,
          by rw [Store.length, hsize]; exact h.room⟩⟩
      refine ⟨fun next length hnext hlength => ?_, houts.outlet, houts.bus, ?_, ?_, houts.blockSize⟩
      · rw [← hroom] at hlength
        cases hlength
        dsimp only at hnext
        split at hnext
        · next hlt =>
          cases hnext
          exact hlt.le
        · cases hnext
      · rw [← hroom, Option.map_some, Store.length, size_overwrite]
        rfl
      · rintro _ ⟨⟩
        exact (hkept _ (size_overwrite ..)).2 hproper

theorem delayWriter_succeeds :
    Succeeds (Outputs.Ready settings.blockSize outlets room)
      (DelayWriter.process ins outs first last) := by
  refine hins.piece hle hlast 0 fun input _ => ?_
  cases hstore : outs.store with
  | none => exact houts
  | some line =>
    have hproper := houts.store line hstore
    dsimp only
    split
    · exact houts
    · next hlength =>
      have hhead := hproper.head
      rw [if_neg (by omega)]
      obtain ⟨hsame, hwritten⟩ := DelayWriter.foldl_write input hproper hlength
      refine ⟨houts.outlet, houts.bus, ?_, ?_, houts.blockSize⟩
      · rw [← houts.room, hstore, Option.map_some, Option.map_some, hsame]
      · rintro _ ⟨⟩
        exact hwritten

end Process

/-- Whether a unit computes, and if so where the samples of its outlets come from. -/
theorem source_of_computes {u : CatalogueUnit} (h : u.computes = true) (outlet : Nat) :
    Device.source u outlet = .pooled := by
  cases u with
  | port => cases h
  | _ => rfl

/-- A unit that computes does so without a fault. -/
theorem process_succeeds {settings : Settings} (hs : settings.HasRoom) {u : CatalogueUnit}
    (hcomputes : u.computes = true) {room : Option Nat} (hfits : u.Fits settings room)
    {ins : Inputs} (hins : ins.Ready settings.blockSize) {outs : Outputs}
    (houts : outs.Ready settings.blockSize u.ports.streamOutlets room) {first last : Nat}
    (hle : first ≤ last) (hlast : last ≤ settings.blockSize) :
    Succeeds (fun r => r.1.Fits settings room ∧
      r.2.Ready settings.blockSize u.ports.streamOutlets room) (u.process ins outs first last) := by
  cases u with
  | hostInput v =>
    exact (hostInput_succeeds hins houts hle hlast hs v hfits (Nat.le_refl _)).bind
      fun _ h => ⟨hfits, h⟩
  | hostOutput v =>
    exact (hostOutput_succeeds hins houts hle hlast hs v hfits).bind fun _ h => ⟨hfits, h⟩
  | constant v =>
    have hsame : ∀ old : Samples, Succeeds (fun _ => True)
        (.ok (old.map fun _ => v.value) : Except Fault Samples) := fun _ => ⟨⟩
    exact (houts.modifyOutlet Nat.one_pos hle hlast hsame).bind fun _ h => ⟨⟨⟩, h⟩
  | ramp v => exact (ramp_succeeds houts hle hlast v Nat.one_pos).bind fun _ h => ⟨⟨⟩, h⟩
  | oscillator shape v =>
    exact (oscillator_succeeds hins houts hle hlast v shape.value Nat.one_pos).bind
      fun _ h => ⟨⟨⟩, h⟩
  | streamOperator v =>
    exact (streamOperator_succeeds hins houts hle hlast v Nat.one_pos).bind fun _ h => ⟨⟨⟩, h⟩
  | linkWriter v => exact (linkWriter_succeeds hins houts hle hlast v).bind fun _ h => ⟨⟨⟩, h⟩
  | linkReader v => exact (linkReader_succeeds houts hle hlast Nat.one_pos).bind fun _ h => ⟨⟨⟩, h⟩
  | tableWriter v => exact (tableWriter_succeeds hins houts hle hlast v hfits).bind fun _ h => h
  | tableReader v =>
    exact (tableReader_succeeds hins houts hle hlast Nat.one_pos).bind fun _ h => ⟨⟨⟩, h⟩
  | delayWriter v => exact (delayWriter_succeeds hins houts hle hlast).bind fun _ h => ⟨⟨⟩, h⟩
  | delayReader v =>
    exact (delayReader_succeeds houts hle hlast hins v Nat.one_pos).bind fun _ h => ⟨⟨⟩, h⟩
  | messageOperator | port | table | floatBox | metro | delay | print | messageSender
  | messageReceiver => cases hcomputes
end CatalogueUnit
end Patchbay
