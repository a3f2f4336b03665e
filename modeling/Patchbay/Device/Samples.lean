import Patchbay.Names

/-!
# Working on ranges of samples

A unit computes its block in one or more pieces. Each piece is a range of offsets, read from some
arrays and written to others; an offset outside an array is a fault.
-/

namespace Patchbay

/-- The samples at the offsets from `first` up to `last`. -/
def slice (xs : Samples) (first last : Nat) : Except Fault Samples :=
  if first ≤ last ∧ last ≤ xs.size then .ok (xs.extract first last) else .error .outOfBounds

/-- The samples with `ys` in place of those from `first` on. -/
def overwrite (xs : Samples) (first : Nat) (ys : Samples) : Samples :=
  (ys.foldl (fun (i, xs) y => (i + 1, xs.setIfInBounds i y)) (first, xs)).2

/-- Overwriting keeps the length. -/
theorem size_overwrite (xs : Samples) (first : Nat) (ys : Samples) :
    (overwrite xs first ys).size = xs.size := by
  suffices h : ∀ (l : List Float32) (i : Nat) (zs : Samples),
      (l.foldl (fun (s : Nat × Samples) y => (s.1 + 1, s.2.setIfInBounds s.1 y)) (i, zs)).2.size
        = zs.size by
    simpa [overwrite, ← Array.foldl_toList] using h ys.toList first xs
  intro l
  induction l with
  | nil => simp
  | cons y l ih => intro i zs; simp [ih]

/-- Feeds samples one by one to a machine; its answers, and the state it ends in. -/
def feed {σ : Type} (step : σ → Float32 → Float32 × σ) (s : σ) (xs : Samples) : Samples × σ :=
  xs.foldl (fun (ys, s) x => let (y, s) := step s x; (ys.push y, s)) (#[], s)

/-- What a unit reads while it computes. -/
structure Inputs where
  pool : Pool
  /-- The buffers bound to the unit's stream inlets. -/
  inlets : Array BufferId
  /-- The block that came from the host, channel after channel. -/
  hostInput : Samples
  blockSize : Nat

namespace Inputs

/-- The samples at an inlet. An inlet that is bound to nothing is silent. -/
def inlet (ins : Inputs) (k : Nat) : Except Fault Samples :=
  ins.pool.get ((ins.inlets[k]?).getD .zero)

/-- The range that one channel takes in a block of channels. -/
def channelRange (blockSize channel : Nat) : Except Fault (Nat × Nat) := do
  let first ← checkedMul channel blockSize
  let last ← checkedAdd first blockSize
  return (first, last)

/-- One channel of the host's input. A channel past the last is silent. -/
def hostChannel (ins : Inputs) (channel : Nat) : Except Fault Samples := do
  let (first, last) ← channelRange ins.blockSize channel
  if last ≤ ins.hostInput.size then return ins.hostInput.extract first last
  else ins.pool.get .zero

end Inputs

/-- What a unit writes while it computes. -/
structure Outputs where
  /-- The samples of the unit's stream outlets. Outlets that forward an inlet have none. -/
  outlets : Array Samples
  /-- The bus of the unit's link. -/
  bus : Option Samples := none
  /-- The unit's store. -/
  store : Option Store := none
  /-- The block that goes to the host, channel after channel. -/
  hostOutput : Samples
  blockSize : Nat

namespace Outputs

/-- The samples of an outlet. -/
def outlet (outs : Outputs) (k : Nat) : Except Fault Samples :=
  match outs.outlets[k]? with
  | some samples => .ok samples
  | none => .error .outOfBounds

/-- Changes a range of an outlet. -/
def modifyOutlet (outs : Outputs) (k first last : Nat)
    (f : Samples → Except Fault Samples) : Except Fault Outputs := do
  let samples ← outs.outlet k
  let ys ← f (← slice samples first last)
  return { outs with outlets := outs.outlets.setIfInBounds k (overwrite samples first ys) }

/-- Writes a range of an outlet. -/
def setOutlet (outs : Outputs) (k first last : Nat) (ys : Samples) : Except Fault Outputs :=
  outs.modifyOutlet k first last fun _ => .ok ys

/-- Where a channel of the host's output begins, if it exists. -/
def hostChannel? (outs : Outputs) (channel : Nat) : Except Fault (Option Nat) := do
  let (first, last) ← Inputs.channelRange outs.blockSize channel
  if last ≤ outs.hostOutput.size then return some first else return none

/-- Adds samples to a range of a channel of the host's output, if the channel exists. -/
def addToHost (outs : Outputs) (channel first last : Nat) (ys : Samples) :
    Except Fault Outputs := do
  match ← outs.hostChannel? channel with
  | none => return outs
  | some start =>
    let old ← slice (outs.hostOutput.extract start (start + outs.blockSize)) first last
    let sums := Array.zipWith (· + ·) old ys
    return { outs with hostOutput := overwrite outs.hostOutput (start + first) sums }

end Outputs
end Patchbay
