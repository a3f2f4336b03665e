/-!
# Readers

A **reader** takes a value off the front of a text, or fails. What it leaves is for the next
reader; a reader that fails takes nothing, so another can be tried in its place.
-/

namespace Patchbay

/-- Takes a value off the front of a text. -/
abbrev Reader := StateT (List Char) Option

namespace Reader

variable {α : Type}

/-- The next character, which stays. -/
def peek? : Reader (Option Char) := do return (← get).head?

/-- Takes the next character, if a condition holds for it. -/
def satisfy (p : Char → Bool) : Reader Char := do
  match ← get with
  | c :: rest =>
    if p c then do
      set rest
      return c
    else failure
  | [] => failure

/-- Takes a character. -/
def char (c : Char) : Reader PUnit := do
  let _ ← satisfy (· == c)

/-- Takes a word. -/
def token (word : String) : Reader PUnit := word.toList.forM char

/-- Takes characters as long as a condition holds for them. -/
def takeWhile (p : Char → Bool) : Reader (List Char) := do
  let cs ← get
  set (cs.dropWhile p)
  return cs.takeWhile p

/-- Takes characters as long as a condition holds for them, at least one. -/
def takeSome (p : Char → Bool) : Reader (List Char) := do
  let cs ← takeWhile p
  if cs.isEmpty then failure else return cs

/-- Takes a value if there is one. -/
def optional? (r : Reader α) : Reader (Option α) :=
  (some <$> r) <|> return none

/-- Values taken one after another as long as there are any, and the text left. -/
def manyFrom (r : Reader α) (text : List Char) : List α × List Char :=
  match r.run text with
  | some (x, rest) =>
    if rest.length < text.length then
      let (xs, rest) := manyFrom r rest
      (x :: xs, rest)
    else ([], text)
  | none => ([], text)
termination_by text.length

/-- Takes values one after another as long as there are any. -/
def many (r : Reader α) : Reader (List α) := do
  let (xs, rest) := manyFrom r (← get)
  set rest
  return xs

/-- Takes values with separators between them, at least one. -/
def separated (r : Reader α) (separator : Char) : Reader (List α) := do
  let x ← r
  let xs ← many (char separator *> r)
  return x :: xs

/-- Reads a text as a whole. -/
def whole? (r : Reader α) (text : String) : Option α :=
  match r.run text.toList with
  | some (x, []) => some x
  | _ => none

end Reader
end Patchbay
