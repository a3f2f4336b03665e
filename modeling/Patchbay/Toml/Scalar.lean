import Patchbay.Number.Decimal
import Patchbay.Text.Reader
import Patchbay.Toml.Value

/-!
# Scalars in documents

Strings come in four forms: in double quotes with escapes, or in single quotes as they are, each
on one line, or across lines with the quotes threefold. Numbers may have underscores between their
digits; whole numbers have 64 bits and may be written to the base 2, 8 or 16.
-/

namespace Patchbay.Toml

open Reader

/-! ## Blanks and line ends -/

/-- Whether a character is a blank within a line. -/
def isBlank (c : Char) : Bool := c == ' ' || c == '\t'

/-- Takes blanks. -/
def blanks : Reader PUnit := do
  let _ ← takeWhile isBlank

/-- Takes the end of a line. -/
def newline : Reader PUnit := token "\n" <|> token "\r\n"

/-- Whether a character may stand in a comment, or in a string as itself: all but control
characters, of which the tab is allowed. -/
def isPlain (c : Char) : Bool := c == '\t' || (0x20 ≤ c.toNat && c.toNat != 0x7f)

/-- Takes a comment up to the end of its line. -/
def comment : Reader PUnit := do
  char '#'
  let _ ← takeWhile isPlain

/-! ## Strings -/

/-- Whether a character may stand as itself in a string in double quotes. -/
def isPlainInBasic (c : Char) : Bool := isPlain c && c != '"' && c != '\\'

/-- Whether a character may stand as itself in a string in single quotes. -/
def isPlainInLiteral (c : Char) : Bool := isPlain c && c != '\''

/-- The value of a hexadecimal digit. -/
def hexDigit? (c : Char) : Option Nat :=
  if c.isDigit then some (c.toNat - '0'.toNat)
  else if 'a' ≤ c ∧ c ≤ 'f' then some (c.toNat - 'a'.toNat + 10)
  else if 'A' ≤ c ∧ c ≤ 'F' then some (c.toNat - 'A'.toNat + 10)
  else none

/-- Takes a character given by its number, in so many hexadecimal digits. -/
def codePoint (digits : Nat) : Reader Char := do
  let cs ← get
  let values ← ((cs.take digits).mapM hexDigit? : Option (List Nat))
  if values.length ≠ digits then failure
  set (cs.drop digits)
  let code := values.foldl (fun n d => 16 * n + d) 0
  if code.isValidChar then return Char.ofNat code else failure

/-- Takes an escaped character. -/
def escape : Reader Char := do
  char '\\'
  match ← satisfy fun _ => true with
  | 'b' => return '\x08'
  | 't' => return '\t'
  | 'n' => return '\n'
  | 'f' => return '\x0c'
  | 'r' => return '\r'
  | '"' => return '"'
  | '\\' => return '\\'
  | 'u' => codePoint 4
  | 'U' => codePoint 8
  | _ => failure

/-- Takes a string in double quotes. -/
def basicString : Reader String := do
  char '"'
  let cs ← many (satisfy isPlainInBasic <|> escape)
  char '"'
  return String.ofList cs

/-- Takes a string in single quotes. -/
def literalString : Reader String := do
  char '\''
  let cs ← takeWhile isPlainInLiteral
  char '\''
  return String.ofList cs

/-- Takes one or two quotes that do not end a string across lines. -/
def looseQuotes (quote : Char) : Reader (List Char) := do
  let quotes ← takeSome (· == quote)
  if quotes.length ≤ 2 then return quotes else failure

/-- Takes the three quotes that end a string across lines, after one or two that belong to it. -/
def closingQuotes (quote : Char) : Reader (List Char) := do
  let quotes ← takeSome (· == quote)
  if 3 ≤ quotes.length ∧ quotes.length ≤ 5 then return quotes.drop 3 else failure

/-- Takes a backslash at the end of a line, and all blanks and line ends after it. -/
def continuation : Reader PUnit := do
  char '\\'
  blanks
  newline
  let _ ← many ((do let _ ← satisfy isBlank) <|> newline)

/-- Takes a string across lines, made of the given pieces. -/
def longString (quote : Char) (piece : Reader (List Char)) : Reader String := do
  token (String.ofList [quote, quote, quote])
  let _ ← optional? newline
  let pieces ← many (piece <|> (newline *> return ['\n']) <|> looseQuotes quote)
  let last ← closingQuotes quote
  return String.ofList (pieces.flatten ++ last)

/-- Takes a string across lines in double quotes. -/
def longBasicString : Reader String :=
  longString '"' <|
    takeSome isPlainInBasic <|> (continuation *> return []) <|> ((fun c => [c]) <$> escape)

/-- Takes a string across lines in single quotes. -/
def longLiteralString : Reader String := longString '\'' (takeSome isPlainInLiteral)

/-- Takes a string in any form. -/
def string : Reader String :=
  longBasicString <|> basicString <|> longLiteralString <|> literalString

/-! ## Numbers -/

/-- Takes digits with single underscores between them, which are left out. -/
def digits (isDigit : Char → Bool) : Reader (List Char) := do
  let first ← satisfy isDigit
  let rest ← many (satisfy isDigit <|> (char '_' *> satisfy isDigit))
  return first :: rest

/-- Takes a sign if there is one. -/
def sign : Reader (List Char) :=
  (fun c => [c]) <$> satisfy (fun c => c == '+' || c == '-') <|> return []

/-- Takes a whole number to the base 10, which does not start with a zero unless it is one. -/
def wholeDigits : Reader (List Char) := do
  let sign ← sign
  let cs ←
    if (← peek?) = some '0' then (fun c => [c]) <$> satisfy (· == '0') else digits Char.isDigit
  return sign ++ cs

/-- Takes an exponent. -/
def exponent : Reader (List Char) := do
  let _ ← satisfy fun c => c == 'e' || c == 'E'
  let sign ← sign
  return 'e' :: sign ++ (← digits Char.isDigit)

/-- Takes the decimal places of a number. -/
def places : Reader (List Char) := do
  char '.'
  return '.' :: (← digits Char.isDigit)

/-- Takes a number with decimal places or an exponent. Too large a positive number is refused. -/
def decimal : Reader Float := do
  let whole ← wholeDigits
  let rest ← exponent <|> do
    let places ← places
    let exponent ← exponent <|> return []
    return places ++ exponent
  match readDouble? (String.ofList (whole ++ rest)) with
  | some x => if x == 1.0 / 0.0 then failure else return x
  | none => failure

/-- Takes an infinity, or `nan`. -/
def specialFloat : Reader Float := do
  let sign ← sign
  let x ← (token "inf" *> return (1.0 / 0.0 : Float)) <|> (token "nan" *> return (0.0 / 0.0))
  return if sign = ['-'] then -x else x

/-- Takes a whole number to a base other than 10. -/
def based (letters : String) (base : Nat) : Reader Nat := do
  token letters
  let isDigit (c : Char) : Bool := (hexDigit? c).any (· < base)
  let cs ← digits isDigit
  return (cs.filterMap hexDigit?).foldl (fun n d => base * n + d) 0

/-- The whole number that a sign and digits spell. -/
def ofSigned : List Char → Int
  | '-' :: cs => -(Numeral.ofDigits cs : Int)
  | '+' :: cs => Numeral.ofDigits cs
  | cs => Numeral.ofDigits cs

/-- Whole numbers lie below this bound, and not below its negative. -/
def integerBound : Int := 0x8000000000000000

/-- Takes a whole number of 64 bits. -/
def integer : Reader Int := do
  let n ← (Int.ofNat <$> (based "0x" 16 <|> based "0o" 8 <|> based "0b" 2)) <|>
    (ofSigned <$> wholeDigits)
  if -integerBound ≤ n ∧ n < integerBound then return n else failure

/-! ## Dates and times -/

/-- Takes a number of exactly so many digits that lies between two bounds. -/
def twoDigits (least most : Nat) : Reader Nat := do
  let a ← satisfy Char.isDigit
  let b ← satisfy Char.isDigit
  let n := Numeral.ofDigits [a, b]
  if least ≤ n ∧ n ≤ most then return n else failure

/-- The days of a month. -/
def daysIn (year month : Nat) : Nat :=
  if month = 2 then
    if year % 4 = 0 ∧ (year % 100 ≠ 0 ∨ year % 400 = 0) then 29 else 28
  else if month ∈ [4, 6, 9, 11] then 30
  else 31

/-- Takes a date such as `1979-05-27`. -/
def date : Reader PUnit := do
  let century ← twoDigits 0 99
  let year ← twoDigits 0 99
  char '-'
  let month ← twoDigits 1 12
  char '-'
  let _ ← twoDigits 1 (daysIn (100 * century + year) month)

/-- Takes a time such as `07:32:00.5`. -/
def clock : Reader PUnit := do
  let _ ← twoDigits 0 23
  char ':'
  let _ ← twoDigits 0 59
  char ':'
  let _ ← twoDigits 0 60
  let _ ← optional? (char '.' *> takeSome Char.isDigit)

/-- Takes an offset from universal time, such as `Z` or `-07:00`. -/
def zone : Reader PUnit :=
  (do let _ ← satisfy fun c => c == 'Z' || c == 'z') <|> do
    let _ ← satisfy fun c => c == '+' || c == '-'
    let _ ← twoDigits 0 23
    char ':'
    let _ ← twoDigits 0 59

/-- Takes a date, a time, or both. -/
def moment : Reader PUnit :=
  (do
    date
    let _ ← optional? do
      let _ ← satisfy fun c => c == 'T' || c == 't' || c == ' '
      clock
      optional? zone) <|> clock

/-- Takes a value that is neither an array nor a table. -/
def scalar : Reader Value :=
  (.string <$> string) <|>
  (moment *> return .moment) <|>
  (.float <$> (decimal <|> specialFloat)) <|>
  (.integer <$> integer) <|>
  (token "true" *> return .boolean true) <|>
  (token "false" *> return .boolean false)

end Patchbay.Toml
