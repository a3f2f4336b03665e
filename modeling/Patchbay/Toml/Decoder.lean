import Patchbay.Number.Notation
import Patchbay.Settings
import Patchbay.Toml.Value

/-!
# Decoding settings

A **decoder** turns a value of a document into what it stands for, or refuses it. A record is
decoded from a table with its fields by name, or from an array with its fields in their order. Keys
that name no field are passed over, and so are elements past the last field.
-/

namespace Patchbay.Toml

/-- What a value stands for. -/
abbrev Decoder (α : Type) := Value → Option α

namespace Decoder

/-- A text. -/
def text : Decoder String
  | .string s => some s
  | _ => none

/-- A count below a bound. -/
def count (bound : Nat) : Decoder Nat
  | .integer n => if 0 ≤ n ∧ n < bound then some n.toNat else none
  | _ => none

/-- A number. Whole numbers count as numbers. -/
def number : Decoder Float
  | .float x => some x
  | .integer n => some (if n < 0 then -(ofCount n.natAbs) else ofCount n.natAbs)
  | _ => none

/-- A list. -/
def list {α : Type} (element : Decoder α) : Decoder (List α)
  | .array vs => vs.mapM element
  | .tables ts => ts.mapM fun entries => element (.table .header entries)
  | _ => none

end Decoder

/-- Where the fields of a record are found. -/
inductive Fields where
  | byName (entries : Entries)
  | inOrder (values : List Value)

namespace Fields

/-- The fields in a value. A date counts as a table without any of the fields. -/
def of? : Value → Option Fields
  | .table _ entries => some (.byName entries)
  | .array vs => some (.inOrder vs)
  | .tables ts => some (.inOrder (ts.map (.table .header)))
  | .moment => some (.byName [])
  | _ => none

/-- The value of a field, given its name and its place among the fields. -/
def get? (fields : Fields) (name : String) (place : Nat) : Option Value :=
  match fields with
  | .byName entries => entries.get? name
  | .inOrder values => values[place]?

variable {α : Type}

/-- A field that must be there. -/
def required (fields : Fields) (name : String) (place : Nat) (d : Decoder α) : Option α :=
  (fields.get? name place).bind d

/-- A field with a default. -/
def withDefault (fields : Fields) (name : String) (place : Nat) (d : Decoder α) (default : α) :
    Option α :=
  match fields.get? name place with
  | some v => d v
  | none => some default

end Fields
end Patchbay.Toml
