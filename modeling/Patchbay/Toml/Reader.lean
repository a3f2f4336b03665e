import Patchbay.Toml.Scalar

/-!
# Reading documents

A document is read line by line into statements, which then make up its table. Arrays may go across
lines, tables in braces may not.
-/

namespace Patchbay.Toml

open Reader

/-- Values nest less deeply than this, and a dotted key has fewer parts. -/
def nestingLimit : Nat := 80

/-- Whether a character may stand in a key without quotes. -/
def isKeyChar (c : Char) : Bool :=
  c.isAlphanum || c == '_' || c == '-'

/-- Takes one part of a key. -/
def keyPart : Reader String :=
  basicString <|> literalString <|> (String.ofList <$> takeSome isKeyChar)

/-- Takes a key, whose parts are separated by dots. -/
def key : Reader (List String) := do
  let parts ← separated (do blanks; let part ← keyPart; blanks; return part) '.'
  if parts.length < nestingLimit then return parts else failure

/-- Takes blanks, line ends and whole comments. -/
def gap : Reader PUnit := do
  let _ ← many ((do let _ ← satisfy isBlank) <|> newline <|> (comment *> newline))

/-- Takes an array. A comma after its last element is allowed. -/
def array (value : Reader Value) : Reader Value := do
  char '['
  let elements ← (do
    let elements ← separated (do gap; let v ← value; gap; return v) ','
    let _ ← optional? (char ',')
    return elements) <|> return []
  gap
  char ']'
  return .array elements

/-- Takes a key with a value. -/
def assignment (value : Reader Value) : Reader (List String × Value) := do
  let path ← key
  char '='
  blanks
  return (path, ← value)

/-- Takes a table in braces. -/
def bracesTable (value : Reader Value) : Reader Value := do
  char '{'
  let pairs ← (separated (do let pair ← assignment value; blanks; return pair) ',') <|> return []
  blanks
  char '}'
  let entries ←
    (pairs.foldlM (fun es (path, v) => Entries.addDotted v path es) [] : Option Entries)
  return .table .braces entries

/-- Takes a value with no more than so many levels of arrays and tables. -/
def value : (levels : Nat) → Reader Value
  | 0 => scalar
  | levels + 1 => scalar <|> array (value levels) <|> bracesTable (value levels)

/-- Takes what may stand behind a statement, up to the end of the line. -/
def lineEnd : Reader PUnit := do
  blanks
  let _ ← optional? comment
  match ← get with
  | [] => return
  | _ => newline

/-- Takes a statement. -/
def statement : Reader Statement :=
  (do
    token "[["
    let path ← key
    token "]]"
    return .extend path) <|>
  (do
    char '['
    let path ← key
    char ']'
    return .define path) <|>
  (do
    let (path, v) ← assignment (value (nestingLimit - 1))
    return .assign path v)

/-- Takes a line; nothing if it has no statement. -/
def line : Reader (Option Statement) :=
  (do
    blanks
    let s ← statement
    lineEnd
    return some s) <|>
  (do
    lineEnd
    return none)

/-- The table of a document. A mark of byte order at its front is passed over. -/
def read? (text : String) : Option Entries := do
  let body := (char '\ufeff' <|> return ⟨⟩) *> many line
  ofStatements? ((← body.whole? text).filterMap id)

end Patchbay.Toml
