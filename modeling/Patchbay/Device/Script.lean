import Patchbay.Queue
import Patchbay.Settings

/-!
# Scripts

A unit reacts to a message with a **script**: what it asks of the engine, in order, and at the end
the unit it has become. A script can send messages on, schedule messages for later and cancel what
it has scheduled, and report to the host. It can do nothing else, so whatever a unit does, the
engine around it stays sound.
-/

namespace Patchbay

/-- How serious a report is. -/
inductive Severity where
  /-- Regular output. -/
  | info
  /-- Something was mended, and a default used. -/
  | warning
  /-- Something was dropped. -/
  | error
deriving DecidableEq

/-- The name of a severity. -/
def Severity.text : Severity → String
  | .info => "info"
  | .warning => "warning"
  | .error => "error"

/-- A remark to the host. -/
structure Report where
  severity : Severity
  /-- Who reports, mostly the label of a unit. -/
  source : String
  text : String
deriving DecidableEq

/-- What a unit sees of the engine while it reacts. -/
structure Surroundings where
  /-- The number of the unit itself. -/
  unit : UnitId
  settings : Settings
  /-- The start of the current block in milliseconds. -/
  blockStart : Float

/-- What a unit asks of the engine, and what it becomes. -/
inductive Script (α : Type) where
  | done (result : α)
  /-- Sends a message from an outlet, once the script has ended. -/
  | send (outlet : Nat) (message : Message) (next : Script α)
  /-- Sends a message to all receivers of a name, once the script has ended. -/
  | sendTo (name : Symbol) (message : Message) (next : Script α)
  /-- Schedules a message to leave an outlet at its timestamp. -/
  | schedule (outlet : Nat) (message : Message) (next : EventId → Script α)
  /-- Cancels an event of the unit's own; the answer is whether it was still pending. -/
  | cancel (outlet : Nat) (event : EventId) (next : Bool → Script α)
  | report (severity : Severity) (text : String) (next : Script α)

namespace Script

variable {α β : Type}

/-- One script after another. -/
def bind : Script α → (α → Script β) → Script β
  | done a, f => f a
  | send outlet message next, f => send outlet message (next.bind f)
  | sendTo name message next, f => sendTo name message (next.bind f)
  | schedule outlet message next, f => schedule outlet message fun id => (next id).bind f
  | cancel outlet event next, f => cancel outlet event fun found => (next found).bind f
  | report severity text next, f => report severity text (next.bind f)

instance : Monad Script where
  pure := done
  bind := bind

end Script
end Patchbay
