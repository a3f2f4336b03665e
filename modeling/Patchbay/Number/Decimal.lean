import Patchbay.Number.Binary

/-!
# Decimal numerals

A **decimal** is a whole number times a power of ten. A **numeral** is text that spells one, or
an infinity, or no number at all:

    numeral = [sign] ( "inf" | "infinity" | "nan" | decimal )     (the words in any case)
    decimal = digits [ "." [digits] ] [exponent]  |  "." digits [exponent]
    exponent = ("e" | "E") [sign] digits

Reading rounds once, from the exact decimal to the nearest number of the format.
-/

namespace Patchbay

/-- The number `digits * 10 ^ exponent`. -/
structure Decimal where
  digits : Nat
  exponent : Int
deriving DecidableEq

namespace Decimal

/-- The numerator and denominator of a decimal. -/
def fraction (d : Decimal) : Nat × Nat :=
  if 0 ≤ d.exponent then (d.digits * Nat.pow 10 d.exponent.toNat, 1)
  else (d.digits, Nat.pow 10 (-d.exponent).toNat)

/-- The number of decimal digits of `n`, none for zero. -/
def length (n : Nat) : Nat :=
  if h : n = 0 then 0 else length (n / 10) + 1
termination_by n
decreasing_by exact Nat.div_lt_self (Nat.pos_of_ne_zero h) (by decide)

/-- No format here tells apart decimals whose leading digit lies beyond this power of ten, or
before its inverse. -/
def horizon : Int := 400

open Binary in
/-- The code of the magnitude nearest to a decimal. Powers of ten past the horizon are not worked
out. -/
def code (f : Format) (d : Decimal) : Nat :=
  if d.digits = 0 then 0
  else
    let top := d.exponent + length d.digits
    if horizon < top then f.infinity
    else if top < -horizon then 0
    else f.nearest d.fraction.1 d.fraction.2

end Decimal

/-- What a numeral spells. -/
inductive Numeral where
  | nan
  | infinite (negative : Bool)
  | finite (negative : Bool) (value : Decimal)
deriving DecidableEq

namespace Numeral

/-- The value of a decimal digit. -/
def digit (c : Char) : Nat := c.toNat - '0'.toNat

/-- The number spelled by decimal digits. -/
def ofDigits (cs : List Char) : Nat :=
  cs.foldl (fun n c => 10 * n + digit c) 0

/-- The digits at the front of a text, and what follows them. -/
def takeDigits (cs : List Char) : List Char × List Char :=
  (cs.takeWhile Char.isDigit, cs.dropWhile Char.isDigit)

/-- A sign at the front of a text: whether it is a minus, and what follows it. -/
def takeSign : List Char → Bool × List Char
  | '-' :: cs => (true, cs)
  | '+' :: cs => (false, cs)
  | cs => (false, cs)

/-- The exponent that makes up the whole of a text; an empty text is exponent zero. -/
def exponent? : List Char → Option Int
  | [] => some 0
  | c :: cs =>
    if c = 'e' ∨ c = 'E' then
      let (negative, rest) := takeSign cs
      let (digits, rest) := takeDigits rest
      if digits.isEmpty ∨ ¬ rest.isEmpty then none
      else if negative then some (-(ofDigits digits : Int))
      else some (ofDigits digits : Int)
    else none

/-- The decimal that makes up the whole of a text. -/
def decimal? (cs : List Char) : Option Decimal :=
  let (whole, rest) := takeDigits cs
  let (part, rest) :=
    match rest with
    | '.' :: rest => takeDigits rest
    | rest => ([], rest)
  if whole.isEmpty ∧ part.isEmpty then none
  else
    (exponent? rest).map fun e =>
      ⟨ofDigits (whole ++ part), e - (part.length : Int)⟩

/-- The numeral that makes up the whole of a text. -/
def ofChars? (cs : List Char) : Option Numeral :=
  let (negative, rest) := takeSign cs
  let word := rest.map Char.toLower
  if word = "inf".toList ∨ word = "infinity".toList then some (.infinite negative)
  else if word = "nan".toList then some .nan
  else (decimal? rest).map (.finite negative)

open Binary in
/-- The number of a format nearest to a numeral. -/
def parts (f : Format) : Numeral → Parts
  | .nan => ⟨false, f.infinity + 1⟩
  | .infinite negative => ⟨negative, f.infinity⟩
  | .finite negative d => ⟨negative, d.code f⟩

end Numeral

open Binary in
/-- The single-precision number that a text spells. -/
def readSingle? (text : String) : Option Float32 :=
  (Numeral.ofChars? text.toList).map fun n => (n.parts single).toSingle

open Binary in
/-- The double-precision number that a text spells. -/
def readDouble? (text : String) : Option Float :=
  (Numeral.ofChars? text.toList).map fun n => (n.parts double).toDouble

end Patchbay
