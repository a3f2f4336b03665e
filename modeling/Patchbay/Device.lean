import Patchbay.Device.Samples
import Patchbay.Device.Script

/-!
# What a unit provides

A type of units is a `Device`. A unit declares its ports and its role once, and then only reacts:

- `receive` answers a message at an inlet with a script;
- `emit` answers an event that the unit itself has scheduled and that is now due;
- `process` computes a range of the current block;
- `rewired` is told, between blocks, that the stream connections at an inlet have changed.

The other members say how the unit is to be treated when a graph is planned.
-/

namespace Patchbay

/-- The behaviour of a type of units. -/
class Device (U : Type) where
  /-- The name of the unit's kind, such as `osc~`. -/
  label : U → String
  /-- The inlets and outlets of the unit, which do not change while it lives. -/
  ports : U → Ports
  /-- Answers a message at an inlet. -/
  receive : U → (inlet : Nat) → Message → Surroundings → Script U := fun u _ _ _ => .done u
  /-- Answers an event of the unit's own that is due at an outlet: unless said otherwise, it sends
  the message on. -/
  emit : U → (outlet : Nat) → Message → Surroundings → Script U :=
    fun u outlet message _ => .send outlet message (.done u)
  /-- Computes the samples at the offsets from `first` up to `last`. -/
  process : U → Inputs → Outputs → (first last : Nat) → Except Fault (U × Outputs) :=
    fun u _ outs _ _ => .ok (u, outs)
  /-- Learns that the stream connections at an inlet have changed; `counts` holds the number of
  stream connections at each inlet. -/
  rewired : U → (inlet : Nat) → (counts : List Nat) → U := fun u _ _ => u
  /-- Whether the unit computes samples. One that does not is wired but has no step in a plan. -/
  computes : U → Bool := fun u => (ports u).hasStreams
  /-- Where the samples of a stream outlet come from. -/
  source : U → (outlet : Nat) → OutletSource := fun _ _ => .pooled
  /-- The unit's role under a name. -/
  registration : U → Option Registration := fun _ => none
  /-- Whether planning starts from the unit even if something is connected to it. -/
  isSink : U → Bool := fun _ => false
  /-- The side of a subgraph that the unit stands for when it is placed in one. -/
  side : U → Option Side := fun _ => none

end Patchbay
