import Patchbay.Device

/-!
# Creation arguments

A unit is made from a label and a message of arguments, as in `osc~ 440`. Arguments that make no
sense never stop it from being made: they are reported, and the documented default is used.
-/

namespace Patchbay.Catalogue

/-- The making of a unit, which may leave reports. They are there even if a rule was broken after
them. -/
abbrev Making := EStateM Fault (Array Report)

namespace Making

/-- A result that is there unless a rule was broken on the way to it. -/
def of {α : Type} : Except Fault α → Making α
  | .ok a => return a
  | .error how => throw how

/-- Leaves a warning of the unit with the given label. -/
def warn (label text : String) : Making PUnit :=
  modify (·.push { severity := .warning, source := label, text })

/-- The number at an index among the arguments, or the default if there is none. -/
def float (label : String) (args : Message) (index : Nat) (default : Float32) : Making Float32 :=
  match args.atoms[index]? with
  | none => return default
  | some (.float value) => return value
  | some other => do
    let used := writeSingle default
    warn label s!"argument {index} '{other.text}' is not a number; using {used}"
    return default

/-- The name at an index among the arguments, or the empty name if there is none. A number serves
as a name by its text. -/
def name (label : String) (args : Message) (index : Nat) : Making Symbol :=
  match args.atoms[index]? with
  | some (.symbol name) => return name
  | some (.float value) => return .ofString (writeSingle value)
  | _ => do
    warn label "missing name argument; using the empty name"
    return .empty

end Making
end Patchbay.Catalogue
