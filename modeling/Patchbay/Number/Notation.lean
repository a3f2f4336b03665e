import Patchbay.Number.Shortest

/-!
# How numbers are written

Numbers appear in text in two ways, always positionally and never with an exponent:

- *shortest*: the fewest digits that read back, as in `440`, `0.1` or `-0`;
- *fixed*: a given number of decimal places, a half going to the even neighbour.

An infinity is `inf` and the absence of a number is `NaN`.
-/

namespace Patchbay

open Binary

/-- The decimal digits of a whole number. -/
def writeNat (n : Nat) : String := toString n

/-- A text made at least `width` long by putting `fill` before it. -/
def padLeft (width : Nat) (fill : Char) (text : String) : String :=
  String.ofList (List.replicate (width - text.length) fill) ++ text

/-- A text made at least `width` long by putting blanks after it. -/
def padRight (width : Nat) (text : String) : String :=
  text ++ String.ofList (List.replicate (width - text.length) ' ')

namespace Decimal

/-- A decimal written positionally, without a point if it is whole. -/
def positional (d : Decimal) : String :=
  if 0 ≤ d.exponent then writeNat (d.digits * Nat.pow 10 d.exponent.toNat)
  else
    let places := (-d.exponent).toNat
    let whole := d.digits / Nat.pow 10 places
    let part := d.digits % Nat.pow 10 places
    writeNat whole ++ "." ++ padLeft places '0' (writeNat part)

end Decimal

namespace Binary.Parts

/-- A number as its shortest numeral. -/
def shortest (f : Format) (p : Parts) : String :=
  if f.infinity < p.code then "NaN"
  else
    let sign := if p.negative then "-" else ""
    if p.code = f.infinity then sign ++ "inf"
    else sign ++ (Decimal.shortest f p.code).positional

/-- A number with a fixed number of decimal places, at least one. -/
def fixed (f : Format) (places : Nat) (p : Parts) : String :=
  if f.infinity < p.code then "NaN"
  else
    let sign := if p.negative then "-" else ""
    if p.code = f.infinity then sign ++ "inf"
    else
      let ticks := roundHalfEven (f.units p.code * Nat.pow 10 places) (1 <<< f.scale)
      sign ++ Decimal.positional ⟨ticks, -(places : Int)⟩

end Binary.Parts

/-- A single-precision number as its shortest numeral. -/
def writeSingle (x : Float32) : String := (Parts.ofSingle x).shortest single

/-- A double-precision number as its shortest numeral. -/
def writeDouble (x : Float) : String := (Parts.ofDouble x).shortest double

/-- A double-precision number with a fixed number of decimal places. -/
def writeFixed (places : Nat) (x : Float) : String := (Parts.ofDouble x).fixed double places

end Patchbay
