import Patchbay.Pool

/-!
# Wave files

A wave file holds frames of samples, each sample a number of single precision. Its header says how
many channels a frame has and how many frames a second takes. All numbers are written with their
lowest byte first.
-/

namespace Patchbay

namespace Wave

/-- The bytes of a number, so many of them. -/
def number : (width : Nat) → Nat → List UInt8
  | 0, _ => []
  | width + 1, n => UInt8.ofNat n :: number width (n / 256)

/-- The number that bytes stand for. -/
def ofBytes : List UInt8 → Nat
  | [] => 0
  | b :: bs => b.toNat + 256 * ofBytes bs

/-- The bytes of a tag of four letters. -/
def tag (text : String) : List UInt8 := text.toUTF8.toList

/-- The bits of a sample. -/
def sampleBits : Nat := 8 * sampleBytes

/-- Stands for a kind of samples in the long form of a header: a code with a fixed ending. -/
def kindName (code : Nat) : List UInt8 :=
  number 4 code ++ [0, 0, 0x10, 0, 0x80, 0, 0, 0xaa, 0, 0x38, 0x9b, 0x71]

/-- The code of samples that are whole numbers. -/
def wholeCode : Nat := 1

/-- The code of samples that are numbers of single precision. -/
def singleCode : Nat := 3

/-- The code of the long form of a header, which names the kind of samples at its end. -/
def longCode : Nat := 0xfffe

/-- The loudspeakers that have a place of their own. -/
def placedChannels : Nat := 18

/-- The header before so many bytes of samples. Of a number too large for its place the lowest bytes
are written. -/
def headerBytes (channels sampleRate size : Nat) : List UInt8 :=
  let frame := channels * sampleBytes
  tag "RIFF" ++ number 4 (60 + size) ++ tag "WAVE" ++
  tag "fmt " ++ number 4 40 ++ number 2 longCode ++ number 2 channels ++ number 4 sampleRate ++
  number 4 (sampleRate * frame) ++ number 2 frame ++ number 2 sampleBits ++
  number 2 22 ++ number 2 sampleBits ++ number 4 (1 <<< min channels placedChannels - 1) ++
  kindName singleCode ++
  tag "data" ++ number 4 size

/-- The header, if the bytes of a second can be counted. The bytes of a frame are cut to their
place, so that a file with very many channels is written, but nobody can read it. -/
def header (channels sampleRate size : Nat) : Except Fault (List UInt8) :=
  if halfWordSize ≤ sampleRate * (channels * sampleBytes) then .error .overflow
  else .ok (headerBytes channels sampleRate size)

/-- The bytes of a wave file. The samples are given frame after frame, a sample to a channel. -/
def encode (channels sampleRate : Nat) (samples : Samples) : Except Fault ByteArray := do
  let header ← header channels sampleRate (samples.size * sampleBytes)
  return samples.foldl
    (fun bytes x => (number sampleBytes x.toBits.toNat).foldl ByteArray.push bytes)
    ⟨header.toArray⟩

end Wave
end Patchbay
