import Patchbay.Number.Binary

/-!
# The cosine of one turn

`cosine` works on angles from zero to a little over one turn, which is all that an oscillator asks
for. The angle is moved by a multiple of a quarter turn into the interval from minus to plus an
eighth, where one of two short polynomials, evaluated in double precision, gives the cosine or the
sine to single precision.

The bounds between the cases and the coefficients are given by their bits: the last bit of every
answer depends on them.
-/

namespace Patchbay
namespace Cosine

/-- The cosine for angles of at most an eighth of a turn. -/
def kernel (x : Float) : Float32 :=
  let c0 := Float.ofBits 0xbfdffffffd0c5e81
  let c1 := Float.ofBits 0x3fa55553e1053a42
  let c2 := Float.ofBits 0xbf56c087e80f1e27
  let c3 := Float.ofBits 0x3ef99342e0ee5069
  let z := x * x
  let w := z * z
  let r := c2 + z * c3
  narrow (((1.0 + z * c0) + w * c1) + (w * z) * r)

/-- The sine for angles of at most an eighth of a turn. -/
def sineKernel (x : Float) : Float32 :=
  let s1 := Float.ofBits 0xbfc5555554cbac77
  let s2 := Float.ofBits 0x3f811110896efbb2
  let s3 := Float.ofBits 0xbf2a00f9e2cae774
  let s4 := Float.ofBits 0x3ec6cd878c3b46a7
  let z := x * x
  let w := z * z
  let r := s3 + z * s4
  let s := z * x
  narrow ((x + s * (s1 + z * s2)) + s * w * r)

/-- A quarter of a turn. -/
def quarter : Float := Float.ofBits 0x3ff921fb54442d18

/-- A single-precision number that is no number. -/
def noNumber : Float32 := Float32.ofBits 0x7fc00000

end Cosine

open Cosine in
/-- The cosine of an angle in radians between zero and nine eighths of a turn. Other angles have no
cosine here. -/
def cosine (x : Float32) : Float32 :=
  let code := x.toBits
  let angle := widen x
  if code < 0x39800000 then 1.0
  else if code ≤ 0x3f490fda then kernel angle
  else if code ≤ 0x4016cbe3 then sineKernel (quarter - angle)
  else if code ≤ 0x407b53d1 then -kernel (angle - 2 * quarter)
  else if code ≤ 0x40afeddf then sineKernel (angle - 3 * quarter)
  else if code ≤ 0x40e231d5 then kernel (angle - 4 * quarter)
  else noNumber

end Patchbay
