import Patchbay.Wave

/-!
# Reading wave files

A wave file is a row of **chunks** behind a tag. A chunk is a name, a length, and so many bytes. The
chunk `fmt ` says how samples are kept. The samples are in the chunk `data`, and nothing behind it is
looked at. Other chunks are passed over.

Samples are read if they are numbers of single precision. Of samples that are kept in another way
there must be none.
-/

namespace Patchbay

/-- What a wave file holds. -/
structure Wave where
  /-- Samples in a frame. -/
  channels : Nat
  /-- Frames in a second. -/
  sampleRate : Nat
  /-- Bits of a sample that carry its value. -/
  bits : Nat
  /-- Whether samples are numbers of single precision, and not whole numbers. -/
  float : Bool
  /-- Frame after frame, a sample to a channel. -/
  samples : Samples := #[]
deriving DecidableEq

namespace Wave

/-- Takes a value off the front of a row of bytes. -/
abbrev Scan := StateT (List UInt8) Option

namespace Scan

/-- Takes so many bytes. -/
def bytes (count : Nat) : Scan (List UInt8) := fun all =>
  let front := all.take count
  if front.length = count then some (front, all.drop count) else none

/-- Takes a number of so many bytes. -/
def number (width : Nat) : Scan Nat := ofBytes <$> bytes width

/-- Goes on if a condition holds. -/
def check (condition : Bool) : Scan PUnit := if condition then return else failure

/-- The kind of samples and the bits of one, from the end of a header. The kind is known by its
code. Whole numbers come with a header of one of three lengths, whose end says nothing new. -/
def kind (code length bits : Nat) : Scan (Bool × Nat) := do
  if code = wholeCode then
    check (length == 16 || [18, 40].contains length && [8, 16, 24].contains bits)
    let _ ← Scan.bytes (length - 16)
    return (false, bits)
  else if code = singleCode then
    check ([16, 18].contains length && bits == sampleBits)
    check (ofBytes (← Scan.bytes (length - 16)) == 0)
    return (true, bits)
  else do
    check (code == longCode && decide (40 ≤ length))
    check ((← number 2) == 22)
    let counted ← number 2
    let _ ← number 4
    let name ← Scan.bytes 16
    check ([wholeCode, singleCode].any (kindName · == name))
    return (name == kindName singleCode, if counted = 0 then bits else counted)

/-- The bits that a sample can take up lie below this bound. -/
def bitLimit : Nat := 0x10000

/-- What a header of some length says: the bytes that a sample takes up, and a file without samples.
The bytes of a frame are shared out evenly among its samples, each in whole bytes and large enough
for its bits. -/
def header (length : Nat) : Scan (Nat × Wave) := do
  check (decide (16 ≤ length))
  let code ← number 2
  let channels ← number 2
  let sampleRate ← number 4
  let second ← number 4
  let frame ← number 2
  let bits ← number 2
  let width := frame / channels
  check (channels != 0 && decide (bits ≤ 8 * width) && decide (8 * width < bitLimit))
  check (second == frame * sampleRate && bits % 8 == 0 && bits != 0)
  let (float, bits) ← kind code length bits
  return (width, { channels, sampleRate, bits, float })

/-- Goes on to the samples, past at most so many chunks: what the last header says, and the length of
the samples. -/
def toSamples : (chunks : Nat) → Option (Nat × Wave) → Scan ((Nat × Wave) × Nat)
  | 0, _ => failure
  | chunks + 1, found => do
    let name ← bytes 4
    let length ← number 4
    if name = tag "fmt " then
      toSamples chunks (some (← header length))
    else if name = tag "data" then
      return (← found, length)
    else do
      let _ ← bytes (if name = tag "fact" then 4 else length)
      toSamples chunks found

/-- Samples, and behind them those that bytes stand for. -/
def samplesFrom (done : Samples) : List UInt8 → Samples
  | a :: b :: c :: d :: rest =>
    samplesFrom (done.push (Float32.ofBits (UInt32.ofNat (ofBytes [a, b, c, d])))) rest
  | _ => done

/-- Takes a wave file. Each frame must have all its samples, and each sample must be there. -/
def wave (chunks : Nat) : Scan Wave := do
  check ((← bytes 4) == tag "RIFF")
  let _ ← number 4
  check ((← bytes 4) == tag "WAVE")
  let ((width, wave), length) ← toSamples chunks none
  let count := length / width
  check (count % wave.channels == 0)
  check (count == 0 || wave.float && width == sampleBytes && wave.bits == sampleBits)
  let samples ← bytes (count * width)
  return { wave with samples := samplesFrom #[] samples }

end Scan

/-- The wave file that bytes make up. -/
def decode? (bytes : ByteArray) : Option Wave := do
  let (wave, _) ← (Scan.wave bytes.size).run bytes.toList
  return wave

end Wave
end Patchbay
