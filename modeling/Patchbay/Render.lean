import Patchbay.Engine.Block

/-!
# Rendering

The blocks of an engine come channel after channel. A recording has frame after frame, each with a
sample of every channel. Rendering computes blocks until there are as many frames as asked for, and
leaves out the rest of the last block.
-/

namespace Patchbay

namespace Render

/-- The frames at the front of a block. -/
def interleave (channels blockSize frames : Nat) (block : Samples) : Samples :=
  (Array.range frames).flatMap fun frame =>
    (Array.range channels).map fun channel =>
      (block[channel * blockSize + frame]?).getD 0

variable {U : Type} [Device U]

/-- So many frames from an engine without input. What happens meanwhile is not kept. -/
def frames (e : Engine U) (count : Nat) (done : Samples) : Except Fault Samples :=
  if count = 0 then .ok done
  else if _h : e.settings.blockSize = 0 then .error .endless
  else do
    let s := e.settings
    let taken := min s.blockSize count
    match Engine.process #[] s.outputLength e with
    | .error how _ => throw how
    | .ok block next =>
      let done := done ++ interleave s.outputChannels s.blockSize taken block
      frames { next with journal := #[] } (count - taken) done
termination_by count

end Render
end Patchbay
