import Patchbay.Catalogue.Arguments

/-!
# Tables and delay lines

A `table` declares an array that `tabwrite~` records into and `tabread~` reads at any index. A
`delwrite~` declares a circular delay line that any number of `delread~` units tap. A reader runs
after the writer of its line, so a delay of zero reads the current block.
-/

namespace Patchbay.Catalogue

/-- Declares a table. -/
structure Table where
  name : Symbol
  length : Nat
deriving DecidableEq

/-- Made from `[name, length]`. -/
def Table.make (args : Message) : Making Table := do
  let name ← Making.name "table" args 0
  let length ← Making.float "table" args 1 1024
  return { name, length := (maxSingle length 1).toUInt64.toNat }

/-- Records its inlet into a table. A bang starts at the first sample; `stop` ends the recording,
and so does the end of the table. -/
structure TableWriter where
  name : Symbol
  /-- Where the next sample goes, while recording. -/
  position : Option Nat := none
deriving DecidableEq

namespace TableWriter

/-- Made from `[name]`. -/
def make (args : Message) : Making TableWriter := do
  return { name := ← Making.name "tabwrite~" args 0 }

def receive (u : TableWriter) (message : Message) : TableWriter :=
  if message.isBangAt 0 then { u with position := some 0 }
  else if message.hasSelector "stop" then { u with position := none }
  else u

def process (u : TableWriter) (ins : Inputs) (outs : Outputs) (first last : Nat) :
    Except Fault (TableWriter × Outputs) := do
  match u.position with
  | none => return (u, outs)
  | some start =>
    let input ← slice (← ins.inlet 0) first last
    match outs.store with
    | none => return ({ u with position := none }, outs)
    | some store =>
      if store.length < start then throw .outOfBounds
      let count := min input.size (store.length - start)
      let next := start + count
      let recorded := overwrite store.samples start (input.extract 0 count)
      return ({ u with position := if next < store.length then some next else none },
        { outs with store := some { store with samples := recorded } })

end TableWriter

/-- Sends the sample of a table at each index that arrives. Indices are cut to whole numbers
within the table; a table that is missing or empty is silent. -/
structure TableReader where
  name : Symbol
deriving DecidableEq

namespace TableReader

/-- Made from `[name]`. -/
def make (args : Message) : Making TableReader := do
  return { name := ← Making.name "tabread~" args 0 }

/-- The sample at an index. -/
def read (table : Samples) (index : Float32) : Float32 :=
  let i := if index ≤ 0 then 0 else min index.toUInt64.toNat (table.size - 1)
  (table[i]?).getD 0

def process (ins : Inputs) (outs : Outputs) (first last : Nat) : Except Fault Outputs := do
  let indices ← slice (← ins.inlet 0) first last
  let table := (outs.store.map Store.samples).getD #[]
  outs.setOutlet 0 first last (indices.map (read table))

end TableReader

/-- The length of a delay line for a time: whole blocks, and one more, so that a reader can reach
back the full time behind the block just written. -/
def delayLineLength (settings : Settings) (ms : Float32) : Except Fault Nat := do
  let block := max settings.blockSize 1
  let samples := settings.msToSamples (widen (maxSingle ms 0))
  let whole ← checkedMul ((samples + block - 1) / block) block
  checkedAdd whole block

/-- Writes its inlet into a delay line, which it declares. -/
structure DelayWriter where
  name : Symbol
  length : Nat
deriving DecidableEq

namespace DelayWriter

/-- Made from `[name, ms]`. -/
def make (args : Message) (settings : Settings) : Making DelayWriter := do
  let name ← Making.name "delwrite~" args 0
  let ms ← Making.float "delwrite~" args 1 1000
  return { name, length := ← Making.of (delayLineLength settings ms) }

/-- The line after one more sample. -/
def write (line : Store) (x : Float32) : Store :=
  { line with
    samples := line.samples.setIfInBounds line.head x
    head := (line.head + 1) % line.length }

def process (ins : Inputs) (outs : Outputs) (first last : Nat) : Except Fault Outputs := do
  let input ← slice (← ins.inlet 0) first last
  match outs.store with
  | none => return outs
  | some line =>
    if line.length = 0 then return outs
    if line.length ≤ line.head ∧ 0 < input.size then throw .outOfBounds
    return { outs with store := some (input.foldl write line) }

end DelayWriter

/-- Taps a delay line. The delay is cut to what the line holds behind the current block; a number
sets it anew, in milliseconds. -/
structure DelayReader where
  name : Symbol
  /-- The delay in samples. -/
  delay : Nat
deriving DecidableEq

namespace DelayReader

/-- A time in milliseconds as a delay in samples. -/
def delayOf (settings : Settings) (ms : Float32) : Nat :=
  settings.msToSamples (widen (maxSingle ms 0))

/-- Made from `[name, ms]`. -/
def make (args : Message) (settings : Settings) : Making DelayReader := do
  let name ← Making.name "delread~" args 0
  let ms ← Making.float "delread~" args 1 0
  return { name, delay := delayOf settings ms }

def receive (u : DelayReader) (message : Message) (settings : Settings) : DelayReader :=
  match message.floatAt 0 with
  | some ms => { u with delay := delayOf settings ms }
  | none => u

/-- The writer has already moved the head past this block, so the sample at offset `i` lies one
block, less `i`, and the delay behind the head. -/
def process (u : DelayReader) (ins : Inputs) (outs : Outputs) (first last : Nat) :
    Except Fault Outputs := do
  let line := outs.store.getD {}
  if line.length < ins.blockSize ∨ line.length = 0 then
    outs.setOutlet 0 first last (silence (last - first))
  else
    let delay := min u.delay (line.length - ins.blockSize)
    let far ← checkedAdd line.head (← checkedMul 2 line.length)
    let base ← checkedSub far (ins.blockSize + delay)
    if first < last then
      let _ ← checkedAdd base (last - 1)
    let offsets := Array.range' first (last - first)
    outs.setOutlet 0 first last
      (offsets.map fun i => (line.samples[(base + i) % line.length]?).getD 0)

end DelayReader
end Patchbay.Catalogue
