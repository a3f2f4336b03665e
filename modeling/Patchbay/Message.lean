import Patchbay.Number.Notation
import Patchbay.Text.Words
import Patchbay.Text.Symbol

/-!
# Messages

A **message** is a short list of **atoms** with an absolute time in milliseconds. Its text is the
text of its atoms with a blank between them, and `Message.parse` reads such text back: every word
is an atom, the word `bang` a bang, a finite numeral a number, and anything else a symbol.
-/

namespace Patchbay

/-- One element of a message. -/
inductive Atom where
  /-- An event without a value. -/
  | bang
  /-- A number. -/
  | float (value : Float32)
  /-- A short text. -/
  | symbol (name : Symbol)
deriving DecidableEq

namespace Atom

/-- The atom that a word spells. -/
def parse (word : String) : Atom :=
  if word = "bang" then .bang
  else
    match readSingle? word with
    | some value => if value.isFinite then .float value else .symbol (.ofString word)
    | none => .symbol (.ofString word)

/-- The text of an atom. -/
def text : Atom → String
  | .bang => "bang"
  | .float value => writeSingle value
  | .symbol name => name.text

/-- Equality that compares numbers as numbers: the zeros are equal, and a NaN differs from
itself. -/
def same : Atom → Atom → Bool
  | .bang, .bang => true
  | .float x, .float y => x == y
  | .symbol a, .symbol b => a == b
  | _, _ => false

end Atom

/-- The atoms that one message can hold. -/
def maxAtoms : Nat := 8

/-- A list of atoms with a time. -/
structure Message where
  /-- Absolute time in milliseconds. -/
  timestamp : Float
  atoms : List Atom
  fits : atoms.length ≤ maxAtoms := by simp [maxAtoms]
deriving DecidableEq

namespace Message

instance : Inhabited Message := ⟨{ timestamp := 0, atoms := [] }⟩

/-- The message of the first atoms of a list, as many as fit. -/
def ofAtoms (timestamp : Float) (atoms : List Atom) : Message where
  timestamp := timestamp
  atoms := atoms.take maxAtoms
  fits := List.length_take_le _ _

/-- The message of a single bang. -/
def bang (timestamp : Float) : Message := ofAtoms timestamp [.bang]

/-- The message of a single number. -/
def float (timestamp : Float) (value : Float32) : Message := ofAtoms timestamp [.float value]

/-- The message of a single symbol. -/
def symbol (timestamp : Float) (text : String) : Message :=
  ofAtoms timestamp [.symbol (.ofString text)]

/-- The message that a text spells, a word to an atom. Words that do not fit are left out. -/
def parse (timestamp : Float) (text : String) : Message :=
  ofAtoms timestamp ((words text).map Atom.parse)

/-- The same atoms at another time. -/
def stampedAt (m : Message) (timestamp : Float) : Message := { m with timestamp }

/-- The message with one more atom, if there is room for it. -/
def push? (m : Message) (a : Atom) : Option Message :=
  if h : m.atoms.length < maxAtoms then
    some { m with atoms := m.atoms ++ [a], fits := List.length_append ▸ h }
  else none

/-- The number at an index, if that atom is a number. -/
def floatAt (m : Message) (index : Nat) : Option Float32 :=
  match m.atoms[index]? with
  | some (.float value) => some value
  | _ => none

/-- The symbol at an index, if that atom is a symbol. -/
def symbolAt (m : Message) (index : Nat) : Option Symbol :=
  match m.atoms[index]? with
  | some (.symbol name) => some name
  | _ => none

/-- Whether the atom at an index is a bang. -/
def isBangAt (m : Message) (index : Nat) : Bool :=
  m.atoms[index]? == some .bang

/-- Whether the message starts with the given symbol. -/
def hasSelector (m : Message) (selector : String) : Bool :=
  (m.symbolAt 0).any fun name => name.text == selector

/-- The text of a message. -/
def text (m : Message) : String :=
  " ".intercalate (m.atoms.map Atom.text)

/-- Equality that compares numbers, the timestamp among them, as numbers. -/
def same (m n : Message) : Bool :=
  m.timestamp == n.timestamp && m.atoms.length == n.atoms.length &&
    (m.atoms.zip n.atoms).all fun p => p.1.same p.2

end Message
end Patchbay
