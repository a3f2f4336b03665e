/-!
# Faults

A **fault** is a breach of a rule that the engine keeps by itself: the accounting of buffers, the
bounds of an array, the width of a count. No edit and no message is meant to cause one, and work
stops at the first. Errors that a caller can expect have types of their own.
-/

namespace Patchbay

/-- A sample buffer: one of a pool's, or the silence that all pools share. -/
inductive BufferId where
  /-- The silent buffer, which nobody may write. -/
  | zero
  /-- A buffer of the pool, by its index. -/
  | pooled (index : Nat)
deriving DecidableEq, Inhabited

/-- The name of a buffer in listings. -/
def BufferId.text : BufferId → String
  | .zero => "buf[zero]"
  | .pooled index => s!"buf[{index}]"

/-- A breach of an internal rule. -/
inductive Fault where
  /-- Readers were added to a buffer that nobody holds. -/
  | reserveFree (buffer : BufferId)
  /-- A reader was taken from a buffer that has none. -/
  | underflow (buffer : BufferId)
  /-- The silent buffer was asked for writing. -/
  | zeroReadOnly
  /-- A sum was to overwrite one of its addends. -/
  | sumInPlace
  /-- An index beyond the end of what it points into. -/
  | outOfBounds
  /-- A count that does not fit its width. -/
  | overflow
  /-- An array larger than memory can address. -/
  | tooLarge
  /-- A loop that has not ended within the steps granted to it. -/
  | endless
deriving DecidableEq

/-- What the pool says about a breach of its own accounting. -/
def Fault.message? : Fault → Option String
  | .reserveFree buffer => some s!"reserve on free buffer {buffer.text}"
  | .underflow buffer => some s!"buffer pool underflow on {buffer.text}"
  | .zeroReadOnly => some "the zero buffer is read-only"
  | _ => none

/-- Counts of samples lie below this bound. -/
def wordSize : Nat := 0x10000000000000000

/-- Counts of readers lie below this bound. -/
def halfWordSize : Nat := 0x100000000

/-- The count `n`, if it lies below the bound. -/
def checked (n : Nat) : Except Fault Nat :=
  if n < wordSize then .ok n else .error .overflow

/-- The sum of two counts. -/
def checkedAdd (m n : Nat) : Except Fault Nat := checked (m + n)

/-- The product of two counts. -/
def checkedMul (m n : Nat) : Except Fault Nat := checked (m * n)

/-- The difference of two counts. -/
def checkedSub (m n : Nat) : Except Fault Nat :=
  if n ≤ m then .ok (m - n) else .error .overflow

/-- No array takes this many bytes. -/
def addressable : Nat := 0x8000000000000000

/-- Fails unless there can be an array of so many entries, each of so many bytes. -/
def checkRoom (count bytes : Nat) : Except Fault PUnit :=
  if count * bytes < addressable then .ok () else .error .tooLarge

end Patchbay
