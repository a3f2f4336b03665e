/-!
# Binary floating-point formats

A **format** is a precision and a width of the exponent field. Its magnitudes are the whole
multiples of one *unit*, the smallest positive magnitude, that need no more digits than the
precision allows. Each magnitude has a **code**: the number that its bits spell without the sign.
Codes and magnitudes are ordered alike, and the code after the largest magnitude is infinity.

- `Format.units` reads a code as a number of units;
- `Format.nearest` finds the code of the magnitude nearest to a fraction, ties going to the even
  code, and overflow going to infinity.

Everything else in this folder (reading and writing decimal text, changing precision, rounding to
whole numbers) is exact arithmetic on natural numbers around these two functions.

`Parts` splits a number of Lean's `Float32` or `Float` into its sign and its code.
-/

namespace Patchbay

/-- The whole number nearest to `num / den`; a half goes to the even neighbour. -/
def roundHalfEven (num den : Nat) : Nat :=
  let q := num / den
  let r := num % den
  if 2 * r < den then q
  else if den < 2 * r then q + 1
  else q + q % 2

namespace Binary

/-- A binary floating-point format. -/
structure Format where
  /-- Binary digits of a magnitude, the leading one included. -/
  precision : Nat
  /-- Binary digits of the exponent field. -/
  exponentBits : Nat
deriving DecidableEq

/-- The format of `Float32`. -/
def single : Format := ⟨24, 8⟩

/-- The format of `Float`. -/
def double : Format := ⟨53, 11⟩

namespace Format

/-- One unit is `2 ^ -scale`. -/
def scale (f : Format) : Nat :=
  1 <<< (f.exponentBits - 1) + f.precision - 3

/-- The code of infinity. Larger codes are no numbers. -/
def infinity (f : Format) : Nat :=
  (1 <<< f.exponentBits - 1) <<< (f.precision - 1)

/-- The magnitude with the given code, counted in units. -/
def units (f : Format) (code : Nat) : Nat :=
  let hidden := 1 <<< (f.precision - 1)
  let exponent := code / hidden
  if exponent = 0 then code
  else (hidden + code % hidden) <<< (exponent - 1)

/-- The code of the magnitude nearest to `num / den`. -/
def nearest (f : Format) (num den : Nat) : Nat :=
  let scaled := num <<< f.scale
  let whole := scaled / den
  let drop := if whole < 1 <<< f.precision then 0 else whole.log2 + 1 - f.precision
  let code := drop <<< (f.precision - 1) + roundHalfEven scaled (den <<< drop)
  min code f.infinity

end Format

/-- A number of some format: its sign and the code of its magnitude. -/
structure Parts where
  negative : Bool
  code : Nat
deriving DecidableEq

namespace Parts

/-- The parts of a single-precision number. -/
def ofSingle (x : Float32) : Parts :=
  let bits := x.toBits.toNat
  ⟨0x80000000 ≤ bits, bits % 0x80000000⟩

/-- The single-precision number with the given parts. -/
def toSingle (p : Parts) : Float32 :=
  Float32.ofBits (UInt32.ofNat ((if p.negative then 0x80000000 else 0) + p.code))

/-- The parts of a double-precision number. -/
def ofDouble (x : Float) : Parts :=
  let bits := x.toBits.toNat
  ⟨0x8000000000000000 ≤ bits, bits % 0x8000000000000000⟩

/-- The double-precision number with the given parts. -/
def toDouble (p : Parts) : Float :=
  Float.ofBits (UInt64.ofNat ((if p.negative then 0x8000000000000000 else 0) + p.code))

end Parts

end Binary

open Binary

/-- The double-precision number equal to `x`. -/
def widen (x : Float32) : Float :=
  let p := Parts.ofSingle x
  let code :=
    if p.code < single.infinity then double.nearest (single.units p.code) (1 <<< single.scale)
    else if p.code = single.infinity then double.infinity
    else double.infinity + 1
  Parts.toDouble ⟨p.negative, code⟩

/-- The single-precision number nearest to `x`. -/
def narrow (x : Float) : Float32 :=
  let p := Parts.ofDouble x
  let code :=
    if p.code < double.infinity then single.nearest (double.units p.code) (1 <<< double.scale)
    else if p.code = double.infinity then single.infinity
    else single.infinity + 1
  Parts.toSingle ⟨p.negative, code⟩

/-- The largest whole number that a count of samples can hold. -/
def countLimit : Nat := 0xffffffffffffffff

/-- The least count not below `x`. A negative number and a NaN count as zero, and a number past
`countLimit` as that limit. -/
def ceilCount (x : Float) : Nat :=
  let p := Parts.ofDouble x
  if double.infinity < p.code ∨ p.negative then 0
  else if p.code = double.infinity then countLimit
  else
    let one := 1 <<< double.scale
    min ((double.units p.code + one - 1) / one) countLimit

/-- The count nearest to `x`, a half going up. A negative number and a NaN count as zero, and a
number past `countLimit` as that limit. -/
def roundCount (x : Float) : Nat :=
  let p := Parts.ofDouble x
  if double.infinity < p.code ∨ p.negative then 0
  else if p.code = double.infinity then countLimit
  else
    let one := 1 <<< double.scale
    min ((2 * double.units p.code + one) / (2 * one)) countLimit

/-- The largest whole number not above `x`; a number that is not finite is left as it is, and so
is a negative zero. -/
def floorSingle (x : Float32) : Float32 :=
  let p := Parts.ofSingle x
  if single.infinity ≤ p.code ∨ p.code = 0 then x
  else
    let one := 1 <<< single.scale
    let u := single.units p.code
    let n := if p.negative then (u + one - 1) / one else u / one
    Parts.toSingle ⟨p.negative, single.nearest n 1⟩

/-- The greater of two numbers. A NaN gives way to the other number. -/
def maxSingle (x y : Float32) : Float32 :=
  if x.isNaN then y else if y.isNaN then x else if x < y then y else x

/-- The greater of two numbers. A NaN gives way to the other number. -/
def maxDouble (x y : Float) : Float :=
  if x.isNaN then y else if y.isNaN then x else if x < y then y else x

end Patchbay
