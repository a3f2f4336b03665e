import Patchbay.Catalogue.Arithmetic
import Patchbay.Number.Cosine

/-!
# Sources of signals

- `adc~` and `dac~` are the host's input and output;
- `sig~` holds a number as a signal, and `line~` ramps from one number to another;
- `phasor~` and `osc~` run through a cycle at a frequency.
-/

namespace Patchbay.Catalogue

/-- The host's input, an outlet to a channel. -/
structure HostInput where
  channels : Nat
deriving DecidableEq

def HostInput.process (u : HostInput) (ins : Inputs) (outs : Outputs) (first last : Nat) :
    Except Fault Outputs :=
  (List.range u.channels).foldlM
    (fun outs channel => do
      outs.setOutlet channel first last (← slice (← ins.hostChannel channel) first last)) outs

/-- The host's output, an inlet to a channel. What arrives is added to the channel. -/
structure HostOutput where
  channels : Nat
deriving DecidableEq

def HostOutput.process (u : HostOutput) (ins : Inputs) (outs : Outputs) (first last : Nat) :
    Except Fault Outputs :=
  (List.range u.channels).foldlM
    (fun outs channel => do
      outs.addToHost channel first last (← slice (← ins.inlet channel) first last)) outs

/-- A number as a signal. -/
structure Constant where
  value : Float32
deriving DecidableEq

namespace Constant

/-- Made from `[value]`. -/
def make (args : Message) : Making Constant := do
  return ⟨← Making.float "sig~" args 0 0⟩

def receive (u : Constant) (message : Message) : Constant :=
  match message.floatAt 0 with
  | some value => ⟨value⟩
  | none => u

def process (u : Constant) (outs : Outputs) (first last : Nat) : Except Fault Outputs :=
  outs.modifyOutlet 0 first last fun old => .ok (old.map fun _ => u.value)

end Constant

/-- Linear ramps: `target time` goes from the current value to the target in that many
milliseconds, at least one; `target` jumps; `stop` stays at the current value. -/
structure Ramp where
  /-- The value of the next sample. -/
  current : Float32 := 0
  target : Float32 := 0
  /-- The change from one sample to the next. -/
  slope : Float32 := 0
  /-- The samples left of the ramp. -/
  remaining : Float32 := 0
deriving DecidableEq

namespace Ramp

/-- The ramp at rest at a value. -/
def restingAt (value : Float32) : Ramp := { current := value, target := value }

def receive (u : Ramp) (inlet : Nat) (message : Message) (settings : Settings) : Ramp :=
  if inlet ≠ 0 then u
  else if message.hasSelector "stop" then restingAt u.current
  else
    match message.floatAt 0, message.floatAt 1 with
    | some target, some time =>
      let samples := settings.msToSamples (widen (maxSingle time 1))
      let remaining := maxSingle (UInt64.ofNat samples).toFloat32 1
      { u with target, remaining, slope := (target - u.current) / remaining }
    | some target, none => restingAt target
    | none, _ => u

/-- The next sample of a ramp under way. The last one ends exactly on the target. -/
def step (u : Ramp) : Float32 × Ramp :=
  if 0 < u.remaining then
    let remaining := u.remaining - 1
    let current := if remaining ≤ 0 then u.target else u.current + u.slope
    (u.current, { u with current, remaining })
  else (u.target, u)

def process (u : Ramp) (outs : Outputs) (first last : Nat) : Except Fault (Ramp × Outputs) := do
  let old ← slice (← outs.outlet 0) first last
  if u.remaining ≤ 0 then
    let outs ← outs.setOutlet 0 first last (old.map fun _ => u.target)
    return ({ u with current := u.target }, outs)
  else
    let (ys, u) := feed (fun u _ => u.step) u old
    return (u, ← outs.setOutlet 0 first last ys)

end Ramp

/-- The position in a cycle, from 0 up to 1, that moves on by the frequency over the sample rate.
The frequency is the stream at the left inlet if there is one, and otherwise the last number
received there. A number at the right inlet sets the position. -/
structure Phase where
  phase : Float32 := 0
  frequency : Float32
  sampleRate : Float32
  mode : Mode := .scalar
deriving DecidableEq

namespace Phase

/-- The part of a position that lies within the cycle. Just below zero it would round up to the
end of the cycle, which is the start of the next. -/
def wrap (phase : Float32) : Float32 :=
  let wrapped := phase - floorSingle phase
  if 1 ≤ wrapped then 0 else wrapped

/-- Made from `[frequency]`. -/
def make (label : String) (args : Message) (settings : Settings) : Making Phase := do
  return { frequency := ← Making.float label args 0 0, sampleRate := settings.sampleRate }

def receive (u : Phase) (inlet : Nat) (message : Message) : Phase :=
  match inlet, message.floatAt 0 with
  | 0, some value => { u with frequency := value }
  | 1, some value => { u with phase := wrap value }
  | _, _ => u

/-- The frequency is a stream exactly when the left inlet has one. -/
def rewired (u : Phase) (counts : List Nat) : Phase :=
  { u with mode := if 0 < streamsAt counts 0 then .signal else .scalar }

/-- The current position, and the phase one sample on. -/
def step (u : Phase) (input : Float32) : Float32 × Phase :=
  let scale := 1 / u.sampleRate
  let frequency :=
    match u.mode with
    | .scalar => u.frequency
    | .signal => input
  (u.phase, { u with phase := wrap (u.phase + frequency * scale) })

def process (u : Phase) (shape : Float32 → Float32) (ins : Inputs) (outs : Outputs)
    (first last : Nat) : Except Fault (Phase × Outputs) := do
  let input ← slice (← ins.inlet 0) first last
  let (ys, u) := feed step u input
  return (u, ← outs.setOutlet 0 first last (ys.map shape))

/-- The length of a cycle in radians. -/
def cycle : Float32 := Float32.ofBits 0x40c90fdb

end Phase

/-- The two oscillators, by the shape of their signal. -/
inductive Shape where
  /-- A sawtooth rising from 0 to 1. -/
  | sawtooth
  /-- A cosine. -/
  | cosine
deriving DecidableEq

namespace Shape

def label : Shape → String
  | sawtooth => "phasor~"
  | cosine => "osc~"

/-- The signal at a position in the cycle. -/
def value : Shape → Float32 → Float32
  | sawtooth, phase => phase
  | cosine, phase => Patchbay.cosine (Phase.cycle * phase)

end Shape
end Patchbay.Catalogue
