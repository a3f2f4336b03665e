import Patchbay.Render
import Patchbay.Proofs.Engine.Readiness

/-!
# Recordings are made of blocks

Rendering so many frames computes just the blocks that hold them, and fails only if one of these fails
(`frames_eq`). What is recorded is the front of the blocks, put together and turned from one channel
after the other to one frame after the other (`size_gather`, `getElem?_gather`). An engine that is ready
for a block is ready for the next, so there are as many blocks as one likes if all that is due before
each of them can be handed back (`exists_blocks`).
-/

namespace Patchbay

namespace Render

/-! ## Frames -/

/-- The number of blocks that hold so many frames. -/
def blockCount (blockSize frames : Nat) : Nat := (frames + blockSize - 1) / blockSize

/-- The first frames in a list of blocks, each of which comes channel after channel. -/
def gather (channels blockSize : Nat) : (frames : Nat) → List Samples → Samples
  | _, [] => #[]
  | frames, block :: blocks =>
    interleave channels blockSize (min blockSize frames) block ++
      gather channels blockSize (frames - blockSize) blocks

section Frames

variable {channels blockSize frames frame channel : Nat} {block : Samples} {blocks : List Samples}

theorem blockCount_zero (hpos : 0 < blockSize) : blockCount blockSize 0 = 0 :=
  Nat.div_eq_of_lt (by omega)

/-- The first block of all holds as many frames as it can. -/
theorem blockCount_of_pos (hpos : 0 < blockSize) (h : 0 < frames) :
    blockCount blockSize frames = blockCount blockSize (frames - blockSize) + 1 := by
  by_cases hle : blockSize ≤ frames
  · have hsum : frames + blockSize - 1 = frames - blockSize + blockSize - 1 + blockSize := by omega
    rw [blockCount, hsum, Nat.add_div_right _ hpos]
    rfl
  · have hrest : frames - blockSize = 0 := by omega
    rw [hrest, blockCount_zero hpos]
    exact Nat.div_eq_of_lt_le (by omega) (by omega)

theorem frames_eq_zero (hpos : 0 < blockSize) (h : blockCount blockSize frames = 0) :
    frames = 0 := by
  by_contra hne
  rw [blockCount_of_pos hpos (Nat.pos_of_ne_zero hne)] at h
  omega

/-- One more frame follows those before it. -/
theorem interleave_succ (channels blockSize frames : Nat) (block : Samples) :
    interleave channels blockSize (frames + 1) block = interleave channels blockSize frames block ++
      (Array.range channels).map fun channel => (block[channel * blockSize + frames]?).getD 0 := by
  simp [interleave, Array.range_succ]

theorem size_interleave : (interleave channels blockSize frames block).size = frames * channels := by
  induction frames with
  | zero =>
    rw [Nat.zero_mul]
    rfl
  | succ frames ih =>
    rw [interleave_succ, Array.size_append, ih, Array.size_map, Array.size_range, Nat.succ_mul]

/-- A sample of an earlier frame stands before all of the later ones. -/
theorem index_lt (hframe : frame < frames) (hchannel : channel < channels) :
    frame * channels + channel < frames * channels := by
  calc frame * channels + channel < frame * channels + channels := by omega
    _ = (frame + 1) * channels := (Nat.succ_mul ..).symm
    _ ≤ frames * channels := Nat.mul_le_mul_right _ hframe

theorem getElem?_interleave (hframe : frame < frames) (hchannel : channel < channels) :
    (interleave channels blockSize frames block)[frame * channels + channel]? =
      some ((block[channel * blockSize + frame]?).getD 0) := by
  induction frames with
  | zero => omega
  | succ frames ih =>
    rw [interleave_succ, Array.getElem?_append, size_interleave]
    by_cases hlast : frame = frames
    · subst hlast
      rw [if_neg (by omega), Nat.add_sub_cancel_left, Array.getElem?_map, Array.getElem?_range,
        if_pos hchannel]
      rfl
    · have hbefore : frame < frames := by omega
      rw [if_pos (index_lt hbefore hchannel), ih hbefore]

variable (hpos : 0 < blockSize)
include hpos

theorem size_gather (h : blocks.length = blockCount blockSize frames) :
    (gather channels blockSize frames blocks).size = frames * channels := by
  induction blocks generalizing frames with
  | nil =>
    rw [frames_eq_zero hpos h.symm, Nat.zero_mul]
    rfl
  | cons block blocks ih =>
    have hframes : 0 < frames := by
      by_contra hzero
      obtain rfl : frames = 0 := by omega
      rw [blockCount_zero hpos] at h
      cases h
    rw [blockCount_of_pos hpos hframes] at h
    rw [gather, Array.size_append, size_interleave, ih (Nat.succ.inj h), ← Nat.add_mul]
    congr 1
    omega

theorem getElem?_gather (h : blocks.length = blockCount blockSize frames)
    (hframe : frame < frames) (hchannel : channel < channels) :
    (gather channels blockSize frames blocks)[frame * channels + channel]? =
      (blocks[frame / blockSize]?).map fun block =>
        (block[channel * blockSize + frame % blockSize]?).getD 0 := by
  induction blocks generalizing frames frame with
  | nil =>
    rw [frames_eq_zero hpos h.symm] at hframe
    omega
  | cons block blocks ih =>
    rw [blockCount_of_pos hpos (by omega)] at h
    rw [gather, Array.getElem?_append, size_interleave]
    by_cases hfirst : frame < blockSize
    · have hmin : frame < min blockSize frames := by omega
      rw [if_pos (index_lt hmin hchannel), getElem?_interleave hmin hchannel,
        Nat.div_eq_of_lt hfirst, Nat.mod_eq_of_lt hfirst]
      rfl
    · have hle : blockSize ≤ frame := Nat.le_of_not_lt hfirst
      have hmin : min blockSize frames = blockSize := by omega
      have hlater : blockSize * channels ≤ frame * channels := Nat.mul_le_mul_right _ hle
      have hindex : frame * channels + channel - blockSize * channels =
          (frame - blockSize) * channels + channel := by
        rw [Nat.sub_mul]
        omega
      rw [hmin, if_neg (by omega), hindex, ih (Nat.succ.inj h) (by omega),
        Nat.mod_eq_sub_mod hle, Nat.div_eq_sub_div hpos hle, List.getElem?_cons_succ]

end Frames

/-! ## Blocks -/

section Blocks

variable {U : Type} [Device U] {e : Engine U}

/-- So many blocks from an engine without input, one after another. What happens meanwhile is not
kept. -/
def blocks (e : Engine U) : (count : Nat) → Except Fault (List Samples)
  | 0 => .ok []
  | count + 1 =>
    match Engine.process #[] e.settings.outputLength e with
    | .error how _ => .error how
    | .ok block next => (block :: ·) <$> blocks { next with journal := #[] } count

/-- The settings stay as they are. -/
theorem settings_of_process {input block : Samples} {length : Nat} {next : Engine U}
    (h : Engine.process input length e = .ok block next) : next.settings = e.settings :=
  have hdeed : Engine.Deed (.process input length) e next := .played rfl h
  Engine.settings_of_deed hdeed

/-- As long as frames are missing, one more block is computed. -/
theorem frames_of_pos (hpos : 0 < e.settings.blockSize) {count : Nat} (hcount : 0 < count)
    (done : Samples) : frames e count done =
      match Engine.process #[] e.settings.outputLength e with
      | .error how _ => .error how
      | .ok block next => frames { next with journal := #[] } (count - e.settings.blockSize)
          (done ++ interleave e.settings.outputChannels e.settings.blockSize
            (min e.settings.blockSize count) block) := by
  have hrest : count - min e.settings.blockSize count = count - e.settings.blockSize := by omega
  rw [frames, if_neg (Nat.pos_iff_ne_zero.1 hcount), dif_neg (Nat.pos_iff_ne_zero.1 hpos)]
  dsimp only
  rw [hrest]
  cases Engine.process #[] e.settings.outputLength e <;> rfl

/-- Rendering computes the blocks that hold the frames, and these alone. -/
theorem frames_eq (hpos : 0 < e.settings.blockSize) (count : Nat) (done : Samples) :
    frames e count done = (blocks e (blockCount e.settings.blockSize count)).map fun blocks =>
      done ++ gather e.settings.outputChannels e.settings.blockSize count blocks := by
  induction count using Nat.strongRecOn generalizing e done with
  | ind count ih =>
    cases Nat.eq_zero_or_pos count with
    | inl hzero =>
      subst hzero
      rw [frames, if_pos rfl, blockCount_zero hpos]
      exact congrArg Except.ok (Array.append_empty ..).symm
    | inr hcount =>
      rw [frames_of_pos hpos hcount, blockCount_of_pos hpos hcount, blocks]
      cases hprocess : Engine.process #[] e.settings.outputLength e with
      | error how _ => rfl
      | ok block next =>
        have hkept := settings_of_process hprocess
        have hsettings : ({ next with journal := #[] } : Engine U).settings = e.settings := hkept
        dsimp only
        generalize ({ next with journal := #[] } : Engine U) = next at hsettings ⊢
        rw [ih _ (by omega) (hsettings ▸ hpos), hsettings]
        cases blocks next (blockCount e.settings.blockSize (count - e.settings.blockSize)) with
        | error how => rfl
        | ok rest => exact congrArg Except.ok (Array.append_assoc ..)

/-- Samples that are cut or filled up to a length have that length. -/
theorem size_fit (xs : Samples) (length : Nat) : (Engine.fit xs length).size = length := by
  simp only [Engine.fit, silence, Array.size_append, Array.size_extract, Array.size_replicate]
  omega

/-- A block has as many samples as the host asks for. -/
theorem size_of_process {input block : Samples} {length : Nat} {next : Engine U}
    (h : Engine.process input length e = .ok block next) : block.size = length := by
  obtain ⟨_, e₁, -, h⟩ := run_bind_eq_ok.1 h
  rw [run_get_bind, run_modify_bind] at h
  obtain ⟨_, _, -, h⟩ := run_bind_eq_ok.1 h
  obtain ⟨_, _, -, h⟩ := run_bind_eq_ok.1 h
  obtain ⟨_, ended, -, h⟩ := run_bind_eq_ok.1 h
  cases h
  exact size_fit ended.hostOutput length

/-- Blocks are computed one after the other. -/
theorem blocks_succ_eq_ok {count : Nat} {computed : List Samples} :
    blocks e (count + 1) = .ok computed ↔ ∃ block next rest,
      Engine.process #[] e.settings.outputLength e = .ok block next ∧
      blocks { next with journal := #[] } count = .ok rest ∧ computed = block :: rest := by
  rw [blocks]
  cases Engine.process #[] e.settings.outputLength e with
  | error how _ => simp
  | ok block next =>
    dsimp only
    constructor
    · intro h
      cases hrest : blocks (U := U) _ count with
      | error how =>
        rw [hrest] at h
        cases h
      | ok rest =>
        rw [hrest] at h
        cases h
        exact ⟨block, next, rest, rfl, hrest, rfl⟩
    · rintro ⟨_, _, rest, ⟨⟩, hrest, rfl⟩
      rw [hrest]
      rfl

/-- So many blocks are computed, and each has the samples of all channels. -/
theorem blocks_spec {count : Nat} {computed : List Samples} (h : blocks e count = .ok computed) :
    computed.length = count ∧ ∀ block ∈ computed, block.size = e.settings.outputLength := by
  induction count generalizing e computed with
  | zero =>
    cases h
    exact ⟨rfl, nofun⟩
  | succ count ih =>
    obtain ⟨block, next, rest, hprocess, hrest, rfl⟩ := blocks_succ_eq_ok.1 h
    obtain ⟨hlength, hsizes⟩ := ih hrest
    refine ⟨congrArg (· + 1) hlength, List.forall_mem_cons.2 ⟨size_of_process hprocess, ?_⟩⟩
    intro block hblock
    have hsettings := settings_of_process hprocess
    rw [hsizes block hblock]
    exact congrArg Settings.outputLength hsettings

/-- Each frame is in one of the blocks. -/
theorem div_lt_blockCount {blockSize frame frames : Nat} (hpos : 0 < blockSize)
    (h : frame < frames) : frame / blockSize < blockCount blockSize frames := by
  have hnext : frame / blockSize + 1 = (frame + blockSize) / blockSize :=
    (Nat.add_div_right frame hpos).symm
  have hle : (frame + blockSize) / blockSize ≤ blockCount blockSize frames :=
    Nat.div_le_div_right (by omega)
  omega

/-- What is recorded is the front of the blocks, one frame after the other. -/
theorem exists_samples {blockSize channels count : Nat} {computed : List Samples}
    (hsize : e.settings.blockSize = blockSize) (hchannels : e.settings.outputChannels = channels)
    (hpos : 0 < blockSize) (h : blocks e (blockCount blockSize count) = .ok computed) :
    ∃ samples, frames e count #[] = .ok samples ∧ samples.size = count * channels ∧
      ∀ frame < count, ∀ channel < channels, ∃ block x, computed[frame / blockSize]? = some block ∧
        block[channel * blockSize + frame % blockSize]? = some x ∧
        samples[frame * channels + channel]? = some x := by
  subst hsize hchannels
  obtain ⟨hlength, hsizes⟩ := blocks_spec h
  refine ⟨gather e.settings.outputChannels e.settings.blockSize count computed, ?_,
    size_gather hpos hlength, fun frame hframe channel hchannel => ?_⟩
  · rw [frames_eq hpos, h]
    exact congrArg Except.ok (Array.empty_append ..)
  · have hblock : frame / e.settings.blockSize < computed.length :=
      hlength ▸ div_lt_blockCount hpos hframe
    have hindex : channel * e.settings.blockSize + frame % e.settings.blockSize <
        (computed[frame / e.settings.blockSize]).size := by
      rw [hsizes _ (List.getElem_mem hblock)]
      exact index_lt hchannel (Nat.mod_lt _ hpos)
    refine ⟨_, _, List.getElem?_eq_getElem hblock, Array.getElem?_eq_getElem hindex, ?_⟩
    rw [getElem?_gather hpos hlength hframe hchannel, List.getElem?_eq_getElem hblock, Option.map_some,
      Array.getElem?_eq_getElem hindex]
    rfl

end Blocks

/-! ## Ready engines -/

section Ready

open Engine

variable {settings : Settings} {e : Engine CatalogueUnit}

/-- That all that is due before each of so many blocks can be handed back. -/
def Drains (e : Engine CatalogueUnit) : (count : Nat) → Prop
  | 0 => True
  | count + 1 =>
    (∃ drained, drain e.blockEnd roundLimit (openBlock #[] e) = .ok ⟨⟩ drained) ∧
      ∀ block next, process #[] e.settings.outputLength e = .ok block next →
        Drains { next with journal := #[] } count

/-- Blocks are computed only if all that is due before each of them has been handed back. -/
theorem drains_of_blocks {count : Nat} {computed : List Samples}
    (h : blocks e count = .ok computed) : Drains e count := by
  induction count generalizing e computed with
  | zero => exact ⟨⟩
  | succ count ih =>
    obtain ⟨block, next, rest, hprocess, hrest, -⟩ := blocks_succ_eq_ok.1 h
    obtain ⟨drained, -, -, -, hdrain, -⟩ := process_eq_ok hprocess
    refine ⟨⟨drained, hdrain⟩, fun block' next' h' => ?_⟩
    cases hprocess.symm.trans h'
    exact ih hrest

/-- As many blocks as one likes are computed, as long as all that is due before them can be handed
back. -/
theorem exists_blocks (h : e.Ready settings) (hroom : e.graph.HasRoom) {count : Nat}
    (hdrains : Drains e count) : ∃ computed, blocks e count = .ok computed := by
  induction count generalizing e with
  | zero => exact ⟨[], rfl⟩
  | succ count ih =>
    obtain ⟨⟨drained, hdrain⟩, hnext⟩ := hdrains
    have hlength : e.settings.outputLength * sampleBytes < addressable := by
      rw [h.fit.same]
      exact h.room.output
    obtain ⟨block, next, hprocess, hready, hroom'⟩ := exists_block h hroom hlength hdrain
    have hready' : Ready settings { next with journal := #[] } := hready.of_graph rfl rfl
    obtain ⟨rest, hrest⟩ := ih hready' hroom' (hnext block next hprocess)
    exact ⟨block :: rest, blocks_succ_eq_ok.2 ⟨block, next, rest, hprocess, hrest, rfl⟩⟩

end Ready
end Render
end Patchbay
