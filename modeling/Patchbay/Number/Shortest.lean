import Patchbay.Number.Decimal

/-!
# The shortest decimal that reads back

A number is written with the fewest digits that still read back as the same number. On the grid
of decimals with `n` digits only the two neighbours of the exact value can do so, hence the search
tries one digit, then two, and so on, and keeps the nearer neighbour that reads back. The exact
value stands at the end of the search, so the answer always reads back.
-/

namespace Patchbay
namespace Decimal

open Binary

/-- A decimal without trailing zeros. -/
def trim (d : Decimal) : Decimal :=
  if h : d.digits = 0 then ⟨0, 0⟩
  else if d.digits % 10 = 0 then trim ⟨d.digits / 10, d.exponent + 1⟩
  else d
termination_by d.digits
decreasing_by exact Nat.div_lt_self (Nat.pos_of_ne_zero h) (by decide)

/-- The decimal equal to the magnitude with the given code. -/
def exact (f : Format) (code : Nat) : Decimal :=
  ⟨f.units code * Nat.pow 5 f.scale, -(f.scale : Int)⟩

/-- The exponent of the leading decimal digit of the magnitude with the given code: `0` for 1 to
9.99, `-1` for 0.1 to 0.99. -/
def leading (f : Format) (code : Nat) : Int :=
  let d := exact f code
  d.exponent + length d.digits - 1

/-- The neighbour of a magnitude on the grid of decimals with `n` digits that reads back: of two
the nearer, and of two equally near the greater. -/
def onGrid? (f : Format) (code : Nat) (n : Nat) : Option Decimal :=
  let step := leading f code - (n : Int) + 1
  let unit := Decimal.fraction ⟨1, step⟩
  let num := f.units code * unit.2
  let den := unit.1 <<< f.scale
  let below := num / den
  let low : Decimal := ⟨below, step⟩
  let high : Decimal := ⟨below + 1, step⟩
  match low.code f == code, high.code f == code with
  | true, true => some (if 2 * (num % den) < den then low else high)
  | true, false => some low
  | false, true => some high
  | false, false => none

/-- The first of `tries` grids, starting with `n` digits, on which the magnitude reads back; the
exact value if there is none. -/
def search (f : Format) (code : Nat) : (n tries : Nat) → Decimal
  | _, 0 => exact f code
  | n, tries + 1 => (onGrid? f code n).getD (search f code (n + 1) tries)

/-- More digits than any number of the formats here needs. -/
def digitLimit : Nat := 20

/-- The shortest decimal that reads back as the magnitude with the given code. -/
def shortest (f : Format) (code : Nat) : Decimal :=
  trim (search f code 1 digitLimit)

end Decimal
end Patchbay
