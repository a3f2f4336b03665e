import Patchbay.Ports

/-!
# Units and connections by name

Units are known by numbers, handed out in order and never twice. A connection joins an outlet of
one unit to an inlet of another; what it carries follows from the outlet.
-/

namespace Patchbay

/-- The identity of a unit in a graph. -/
structure UnitId where
  index : Nat
deriving DecidableEq, Inhabited

/-- The name of a unit in listings. -/
def UnitId.text (u : UnitId) : String := s!"unit#{u.index}"

/-- An edge from an outlet to an inlet. -/
structure Connection where
  source : UnitId
  outlet : Nat
  dest : UnitId
  inlet : Nat
deriving DecidableEq

/-- The text of a connection in listings. -/
def Connection.text (c : Connection) : String :=
  s!"{c.source.text}:{c.outlet} -> {c.dest.text}:{c.inlet}"

/-- Why an edit of a graph was refused. -/
inductive GraphError where
  /-- The unit was never added, or is gone. -/
  | unitNotFound (unit : UnitId)
  | noSuchOutlet (unit : UnitId) (outlet : Nat)
  | noSuchInlet (unit : UnitId) (inlet : Nat)
  /-- A stream was led to an inlet for messages only. -/
  | notStreamInlet (unit : UnitId) (inlet : Nat)
  | duplicateConnection (connection : Connection)
  | connectionNotFound (connection : Connection)
  /-- The connection would close a loop of streams. -/
  | cycleDetected (connection : Connection)
  /-- The two units lie in different subgraphs. -/
  | crossGraph (connection : Connection)
  /-- Only subgraphs hold units. -/
  | notASubgraph (unit : UnitId)
  /-- Stream ports of a subgraph come before those for messages only. -/
  | boundaryOrder (unit : UnitId)
  /-- The unit is a port of its subgraph and leaves only with it. -/
  | boundaryRemoval (unit : UnitId)
deriving DecidableEq

/-- The wording of a refusal. -/
def GraphError.message : GraphError → String
  | .unitNotFound unit => s!"{unit.text} not found"
  | .noSuchOutlet unit outlet => s!"{unit.text} has no outlet {outlet}"
  | .noSuchInlet unit inlet => s!"{unit.text} has no inlet {inlet}"
  | .notStreamInlet unit inlet => s!"{unit.text} inlet {inlet} does not accept streams"
  | .duplicateConnection c => s!"connection {c.text} already exists"
  | .connectionNotFound c => s!"connection {c.text} not found"
  | .cycleDetected c => s!"stream connection {c.text} would create a cycle"
  | .crossGraph c => s!"connection {c.text} crosses a subgraph boundary"
  | .notASubgraph unit => s!"{unit.text} is not a subgraph"
  | .boundaryOrder unit => s!"{unit.text} already has message-only ports on that side"
  | .boundaryRemoval unit => s!"{unit.text} is a subgraph port"

end Patchbay
