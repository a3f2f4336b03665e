import Patchbay.Graph

/-!
# The journal

An engine keeps a **journal** of what happens inside it, oldest first. Nothing in the engine reads
it. It is how a host sees the reports of units, and how statements about whole runs can be made:
which messages were received and in what order, which samples were computed, which events fell due.
-/

namespace Patchbay

/-- Something that happened in an engine. -/
inductive Happening where
  /-- A block began. -/
  | opened (blockStart : Float)
  /-- An event fell due and was handed back to the unit that had scheduled it. An event that was
  late carries the time at which its block began. -/
  | fellDue (event : Event)
  /-- A unit received a message. -/
  | received (unit : UnitId) (inlet : Nat) (message : Message)
  /-- A message was put before a unit that will receive it in its next step. -/
  | deferred (unit : UnitId) (inlet : Nat) (message : Message)
  /-- A unit computed the samples at the offsets from `first` up to `last`. -/
  | computed (unit : UnitId) (first last : Nat)
  /-- A unit scheduled an event of its own. -/
  | scheduled (unit : UnitId) (event : EventId)
  /-- A unit asked for an event of its own to be cancelled; it was `found` if still pending. -/
  | cancelled (unit : UnitId) (event : EventId) (found : Bool)
  /-- A message was collected for the host. -/
  | collected (name : Symbol) (message : Message)
  /-- A remark was made to the host. -/
  | reported (report : Report)
  /-- A unit was told of a change in its stream connections. -/
  | told (notice : Notice)
deriving DecidableEq

/-- What happened in an engine, oldest first. -/
abbrev Journal := Array Happening

/-- The reports in a journal. -/
def Journal.reports (j : Journal) : List Report :=
  j.toList.filterMap fun
    | .reported report => some report
    | _ => none

end Patchbay
