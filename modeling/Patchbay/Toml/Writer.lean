import Patchbay.Fault
import Patchbay.Number.Notation
import Patchbay.Toml.Scalar

/-!
# Writing documents

Strings are written in the form that needs the fewest escapes, whole numbers in decimal, and other
numbers by their shortest numeral with at least one decimal place. A document is a list of
sections, each with its header above it and a blank line before that.
-/

namespace Patchbay.Toml

/-! ## Strings -/

/-- The length of the longest run of a character. -/
def longestRun (c : Char) (cs : List Char) : Nat :=
  (cs.foldl
    (fun (run, longest) d =>
      let run := if d = c then run + 1 else 0
      (run, max run longest))
    (0, 0)).2

/-- Whether a character has to be escaped wherever it stands. -/
def needsEscape (c : Char) : Bool := !isPlain c && c != '\n'

/-- How a string is written. -/
inductive Form where
  /-- Between single or double quotes, or three of them. -/
  | asIs (quotes : String)
  /-- Between double quotes, or three of them, with escapes. -/
  | escaped (quotes : String)
deriving DecidableEq

/-- The form for a string: as it is if some kind of quotes allows that. -/
def formOf (cs : List Char) : Form :=
  let escapes := cs.any needsEscape
  let backslash := cs.contains '\\'
  let lines := cs.contains '\n'
  if !escapes && !backslash && !lines && !cs.contains '"' then .escaped "\""
  else if !escapes && !lines && !cs.contains '\'' then .asIs "'"
  else if !escapes && !backslash && longestRun '"' cs ≤ 2 then .escaped "\"\"\""
  else if !escapes && longestRun '\'' cs ≤ 2 then .asIs "'''"
  else if lines then .escaped "\"\"\""
  else .escaped "\""

/-- The hexadecimal digits of a number, in capitals. -/
def hexText (n : Nat) : String :=
  padLeft 4 '0' (String.ofList ((Nat.toDigits 16 n).map Char.toUpper))

/-- A string with its escapes. A quote is escaped once more than `loose` have come in a row. -/
def escapeAll (lines : Bool) (loose : Nat) : (run : Nat) → List Char → String
  | _, [] => ""
  | run, c :: cs =>
    if c = '"' then
      if run < loose then "\"" ++ escapeAll lines loose (run + 1) cs
      else "\\\"" ++ escapeAll lines loose 0 cs
    else
      let written := match c with
        | '\x08' => "\\b"
        | '\t' => "\\t"
        | '\n' => if lines then "\n" else "\\n"
        | '\x0c' => "\\f"
        | '\r' => "\\r"
        | '\\' => "\\\\"
        | c => if needsEscape c then "\\u" ++ hexText c.toNat else c.toString
      written ++ escapeAll lines loose 0 cs

/-- A string as a value. One across lines starts on a line of its own. -/
def writeString (text : String) : String :=
  let cs := text.toList
  let start (quotes : String) : String :=
    if cs.contains '\n' then quotes ++ "\n" else quotes
  match formOf cs with
  | .asIs quotes => start quotes ++ text ++ quotes
  | .escaped quotes =>
    let long := quotes.length = 3
    start quotes ++ escapeAll long (if long then 2 else 0) 0 cs ++ quotes

/-- A string has no run of so many quotes of one kind, since runs are counted in a byte. -/
def runLimit : Nat := 0x100

/-- Fails unless the quotes in a string can be counted. -/
def checkQuotes (text : String) : Except Fault PUnit :=
  let longest (quote : Char) : Nat := longestRun quote text.toList
  if longest '"' < runLimit ∧ longest '\'' < runLimit then .ok () else .error .overflow

/-! ## Numbers -/

/-- A number with decimal places as a value. -/
def writeFloat (x : Float) : String :=
  if x.isNaN then "nan"
  else
    let text := writeDouble x
    if x.isFinite ∧ ¬ text.contains '.' then text ++ ".0" else text

/-! ## Settings -/

/-- What a setting holds. -/
inductive Content where
  | text (s : String)
  | count (n : Nat)
  | number (x : Float)
  | emptyList

namespace Content

/-- Whether a document can hold the content. All but the largest counts fit. -/
def fits : Content → Bool
  | count n => (n : Int) < integerBound
  | _ => true

/-- Fails unless the content can be written. -/
def check : Content → Except Fault PUnit
  | text s => checkQuotes s
  | _ => .ok ()

/-- The content as a value. -/
def write : Content → String
  | text s => writeString s
  | count n => writeNat n
  | number x => writeFloat x
  | emptyList => "[]"

end Content

/-! ## Documents -/

/-- Lines of a document under one header. -/
structure Section where
  /-- The header, such as `[audio]`; none for the lines before the first. -/
  header : Option String := none
  /-- Keys and what they hold. -/
  settings : List (String × Content)

namespace Section

/-- What the settings hold. -/
def contents (s : Section) : List Content := s.settings.map (·.2)

/-- The lines of a section. -/
def write (s : Section) : String :=
  let header := (s.header.map (· ++ "\n")).getD ""
  header ++ String.join (s.settings.map fun (key, content) => s!"{key} = {content.write}\n")

end Section

/-- A document, if it can hold what is to be set. Sections without a header and without settings
are left out. -/
def writeDocument (sections : List Section) : Except Fault (Option String) := do
  let contents := sections.flatMap Section.contents
  if !contents.all Content.fits then return none
  contents.forM Content.check
  let shown := sections.filter fun s => s.header.isSome || !s.settings.isEmpty
  return some ("\n".intercalate (shown.map Section.write))

end Patchbay.Toml
