import Patchbay.Fault
import Patchbay.Number.Binary

/-!
# Settings and block timing

The sample rate, the block size and the channel counts of an engine are fixed for its lifetime.
Times are absolute milliseconds; inside a block they turn into offsets in samples.
-/

namespace Patchbay

/-- The fixed settings of an engine. -/
structure Settings where
  /-- Samples per second. -/
  sampleRate : Float32 := 48000
  /-- Samples per block. -/
  blockSize : Nat := 64
  /-- Channels of host input. -/
  inputChannels : Nat := 2
  /-- Channels of host output. -/
  outputChannels : Nat := 2
deriving DecidableEq

/-- The double-precision number nearest to a count. -/
def ofCount (n : Nat) : Float := (UInt64.ofNat n).toFloat

namespace Settings

instance : Inhabited Settings := ⟨{}⟩

/-- The duration of one sample in milliseconds. -/
def msPerSample (s : Settings) : Float := 1000.0 / widen s.sampleRate

/-- The duration of one block in milliseconds. -/
def blockDuration (s : Settings) : Float := ofCount s.blockSize * s.msPerSample

/-- The samples of one block of host input, channel after channel. -/
def inputLength (s : Settings) : Nat := s.inputChannels * s.blockSize

/-- The samples of one block of host output, channel after channel. -/
def outputLength (s : Settings) : Nat := s.outputChannels * s.blockSize

/-- The slack, in samples, for a time that lies a hair past a sample only by rounding. -/
def offsetSlack : Float := 1e-6

/-- The offset, in the block that starts at `blockStart`, at which an event stamped `timestamp`
takes effect: the next sample, within the block. -/
def sampleOffset (s : Settings) (timestamp blockStart : Float) : Nat :=
  min (ceilCount ((timestamp - blockStart) / s.msPerSample - offsetSlack)) s.blockSize

/-- The whole number of samples nearest to a time span. -/
def msToSamples (s : Settings) (ms : Float) : Nat :=
  roundCount (ms / s.msPerSample)

end Settings
end Patchbay
