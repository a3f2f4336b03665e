import Patchbay.Connection
import Patchbay.Fault

/-!
# Plans

A **plan** is the flat list of steps that computes one block of a graph: a unit's own step, or a
sum that the graph needs where several streams meet at one inlet. The plan also binds every stream
port to a buffer.
-/

namespace Patchbay

/-- One step of a plan. -/
inductive Step where
  /-- A unit computes its block. -/
  | unit (id : UnitId)
  /-- The samples of two buffers are added up into a third. -/
  | sum (left right out : BufferId)
deriving DecidableEq

/-- The line for a step in listings. -/
def Step.text : Step → String
  | .unit id => s!"Process {id.text}"
  | .sum left right out => s!"Sum {left.text} + {right.text} -> {out.text}"

/-- The unit that computes in a step. -/
def Step.unit? : Step → Option UnitId
  | .unit id => some id
  | .sum .. => none

/-- The buffers at the stream ports of a unit. -/
structure Binding where
  inlets : Array BufferId := #[]
  outlets : Array BufferId := #[]
  /-- Where the samples of each outlet come from. -/
  sources : Array OutletSource := #[]
deriving DecidableEq, Inhabited

/-- The binding of a unit's ports before anything is planned: all of them are silent. -/
def Binding.silent (ports : Ports) : Binding where
  inlets := Array.replicate ports.streamInlets .zero
  outlets := Array.replicate ports.streamOutlets .zero
  sources := Array.replicate ports.streamOutlets .pooled

/-- How a block of a graph is computed. -/
structure Plan where
  steps : Array Step := #[]
  /-- The binding of each unit, by its number. -/
  bindings : Array Binding := #[]
  /-- The buffers in the pool when the plan was made. -/
  buffers : Nat := 0
deriving DecidableEq, Inhabited

namespace Plan

/-- The units of a plan in order, without the sums. -/
def units (p : Plan) : List UnitId := p.steps.toList.filterMap Step.unit?

/-- The place of a unit among the units of a plan. -/
def position? (p : Plan) (id : UnitId) : Option Nat := p.units.findIdx? (· = id)

/-- The number of sums. -/
def sumCount (p : Plan) : Nat :=
  p.steps.toList.countP fun
    | .unit _ => false
    | .sum .. => true

/-- The binding of a unit. -/
def binding (p : Plan) (id : UnitId) : Binding := (p.bindings[id.index]?).getD {}

end Plan
end Patchbay
