import Patchbay.Fault

/-!
# The buffer pool

A plan of a graph binds every stream to a **buffer** of block size. The pool hands buffers out
together with the number of their readers. A reader gives its share back once it has been placed,
and a buffer without readers is free to be handed out again, the one freed last before all others.

Since buffers are handed out in the order in which the plan runs, a later writer never overwrites
what an earlier reader still needs.
-/

namespace Patchbay

/-- The samples of one block, or of a table. -/
abbrev Samples := Array Float32

/-- The bytes of one sample. -/
def sampleBytes : Nat := 4

/-- Silence of a given length. -/
def silence (n : Nat) : Samples := Array.replicate n 0

/-- What a pool has counted. -/
structure PoolStats where
  /-- Buffers that exist. -/
  allocated : Nat
  /-- Buffers with readers. -/
  live : Nat
  /-- Buffers handed out since the last reset. -/
  acquired : Nat
  /-- Buffers that became free again since the last reset. -/
  released : Nat
deriving DecidableEq

/-- Buffers of one size, with the number of readers each still has. -/
structure Pool where
  blockSize : Nat
  buffers : Array Samples := #[]
  readers : Array Nat := #[]
  /-- Indices of the free buffers, the next to be handed out first. -/
  free : List Nat := []
  acquired : Nat := 0
  released : Nat := 0
deriving Inhabited

namespace Pool

/-- The number of buffers that exist. -/
def size (p : Pool) : Nat := p.buffers.size

/-- The pool with one more buffer, which no list of free buffers names yet. -/
def allocate (p : Pool) : Pool :=
  { p with buffers := p.buffers.push (silence p.blockSize), readers := p.readers.push 0 }

/-- The pool with every buffer free and the counts at zero. The buffers and what they hold stay. -/
def reset (p : Pool) : Pool :=
  { p with
    readers := Array.replicate p.size 0
    free := List.range p.size
    acquired := 0
    released := 0 }

/-- The bytes of an entry in the list of all buffers. -/
def entryBytes : Nat := 16

/-- A pool of `count` free buffers. -/
def withCapacity (blockSize count : Nat) : Except Fault Pool := do
  checkRoom count entryBytes
  checkRoom blockSize sampleBytes
  return (Nat.repeat allocate count { blockSize }).reset

/-- A free buffer, a new one if there is none, and the pool without it. -/
def takeFree (p : Pool) : Nat × Pool :=
  match p.free with
  | index :: rest => (index, { p with free := rest })
  | [] => (p.size, p.allocate)

/-- Hands out a buffer with `readers` readers. Without readers it is free again at once. -/
def acquire (p : Pool) (readers : Nat) : BufferId × Pool :=
  let (index, p) := p.takeFree
  let p := { p with acquired := p.acquired + 1 }
  if readers = 0 then
    (.pooled index, { p with free := index :: p.free, released := p.released + 1 })
  else
    (.pooled index, { p with readers := p.readers.setIfInBounds index (readers % halfWordSize) })

/-- The readers of a buffer. Nobody has to account for silence. -/
def readersOf (p : Pool) : BufferId → Except Fault Nat
  | .zero => .ok 0
  | .pooled index =>
    match p.readers[index]? with
    | some count => .ok count
    | none => .error .outOfBounds

/-- Adds readers to a buffer that has some. -/
def reserve (p : Pool) (id : BufferId) (additional : Nat) : Except Fault Pool :=
  match id with
  | .zero => .ok p
  | .pooled index =>
    if additional = 0 then .ok p
    else do
      let count ← p.readersOf id
      if count = 0 then throw (.reserveFree id)
      let count := count + additional % halfWordSize
      if halfWordSize ≤ count then throw .overflow
      return { p with readers := p.readers.setIfInBounds index count }

/-- Takes one reader from a buffer. After the last the buffer is free. -/
def release (p : Pool) (id : BufferId) : Except Fault Pool :=
  match id with
  | .zero => .ok p
  | .pooled index => do
    let count ← p.readersOf id
    if count = 0 then throw (.underflow id)
    let p := { p with readers := p.readers.setIfInBounds index (count - 1) }
    if count = 1 then return { p with free := index :: p.free, released := p.released + 1 }
    else return p

/-- What the pool has counted. -/
def stats (p : Pool) : PoolStats where
  allocated := p.size
  live := p.readers.countP (0 < ·)
  acquired := p.acquired
  released := p.released

/-- The samples in a buffer. -/
def get (p : Pool) : BufferId → Except Fault Samples
  | .zero => .ok (silence p.blockSize)
  | .pooled index =>
    match p.buffers[index]? with
    | some samples => .ok samples
    | none => .error .outOfBounds

/-- Replaces the samples in a buffer. -/
def put (p : Pool) (id : BufferId) (samples : Samples) : Except Fault Pool :=
  match id with
  | .zero => .error .zeroReadOnly
  | .pooled index =>
    if index < p.size then .ok { p with buffers := p.buffers.setIfInBounds index samples }
    else .error .outOfBounds

/-- Moves the samples of a buffer out, to be written while other buffers are read. Until they are
put back the buffer holds none. -/
def moveOut (p : Pool) (id : BufferId) : Except Fault (Samples × Pool) := do
  match id with
  | .zero => throw .outOfBounds
  | .pooled index =>
    let samples ← p.get id
    return (samples, { p with buffers := p.buffers.setIfInBounds index #[] })

/-- Writes the sums of the samples in two buffers into a third. -/
def sumInto (p : Pool) (left right out : BufferId) : Except Fault Pool := do
  if out = left ∨ out = right then throw .sumInPlace
  let (dest, p) ← p.moveOut out
  let left ← p.get left
  let right ← p.get right
  let count := min dest.size (min left.size right.size)
  let sums := (Array.zipWith (· + ·) left right).extract 0 count
  p.put out (sums ++ dest.extract count)

end Pool
end Patchbay
