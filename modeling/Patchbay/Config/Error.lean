import Patchbay.Connection

/-!
# Errors of configuration

What can go wrong between a file and an engine that runs.
-/

namespace Patchbay

/-- Why a configuration or a patch cannot be used. -/
inductive ConfigError where
  | unreadable
  | unsaved
  /-- The text is no document, or a value in it has the wrong type. -/
  | malformed
  /-- A number is too large for a document. -/
  | unwritable
  | invalidSetting (field reason : String)
  | duplicateUnit (name : String)
  | unknownUnit (name : String)
  | unknownLabel (unit label : String)
  /-- The unit cannot be placed in the parent. -/
  | placement (unit parent : String) (why : GraphError)
  | connection (source : String) (outlet : Nat) (dest : String) (inlet : Nat) (why : GraphError)
  /-- An event is meant for a name that nothing receives. -/
  | unknownReceiver (name : String)
deriving DecidableEq

/-- The wording of an error. -/
def ConfigError.message : ConfigError → String
  | .unreadable => "failed to read file"
  | .unsaved => "failed to write file"
  | .malformed => "failed to parse TOML"
  | .unwritable => "failed to serialize TOML"
  | .invalidSetting field reason => s!"invalid setting '{field}': {reason}"
  | .duplicateUnit name => s!"duplicate unit name: {name}"
  | .unknownUnit name => s!"unknown unit: {name}"
  | .unknownLabel unit label => s!"unknown label '{label}' for unit '{unit}'"
  | .placement unit parent why => s!"cannot place '{unit}' in '{parent}': {why.message}"
  | .connection source outlet dest inlet why =>
    s!"cannot connect {source}:{outlet} -> {dest}:{inlet}: {why.message}"
  | .unknownReceiver name => s!"no receiver named '{name}'"

/-- The text of a document, which is missing if the document cannot hold what it should. -/
def ConfigError.orUnwritable : Option String → Except ConfigError String
  | some text => .ok text
  | none => .error .unwritable

end Patchbay
