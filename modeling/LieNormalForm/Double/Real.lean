import LieNormalForm.Scalar
import LieNormalForm.Double.Notation

/-!
# Doubles as real numbers

Doubles as weights and as tolerances. `hypotenuse` is the size of a complex number: the
square root of a sum of squares with one correction step, computed on arguments scaled so
that the squares neither overflow nor vanish.
-/

namespace LieNormalForm.Double

/-- The root of `a² + b²` for `b ≤ a`, with the rounding error of the root taken off once. -/
def correctedRoot (a b : Float) : Float :=
  let h := Float.sqrt (a * a + b * b)
  let correction :=
    if h ≤ 2.0 * b then
      let d := h - b
      a * (2.0 * d - a) + (d - 2.0 * (a - b)) * d
    else
      let d := h - a
      2.0 * d * (a - 2.0 * b) + ((4.0 * d - b) * b + d * d)
  h - correction / (2.0 * h)

/-- `2^e` for the exponents of normal doubles, from -1022 to 1023. -/
def powerOfTwo (e : Int) : Float := Float.ofBits ((e + 1023).toNat.toUInt64 <<< 52)

/-- The length of the hypotenuse over the legs `x` and `y`; infinite as soon as one leg is. -/
def hypotenuse (x y : Float) : Float :=
  if x.isInf || y.isInf then 1.0 / 0.0
  else if x.isNaN || y.isNaN then x + y
  else
    let x := x.abs
    let y := y.abs
    let a := if x < y then y else x
    let b := if x < y then x else y
    if powerOfTwo 511 < a then
      if b ≤ a * powerOfTwo (-54) then a + b
      else correctedRoot (a * powerOfTwo (-600)) (b * powerOfTwo (-600)) / powerOfTwo (-600)
    else if b < powerOfTwo (-459) then
      if b / powerOfTwo (-54) ≤ a then a + b
      else correctedRoot (a / powerOfTwo (-600)) (b / powerOfTwo (-600)) * powerOfTwo (-600)
    else if b ≤ a * powerOfTwo (-54) then a + b
    else correctedRoot a b

/-- The natural number that a double is exactly. -/
def natValue? (x : Float) : Option Nat :=
  if x.isNaN || x.isInf || x < 0.0 then none else (Dyadic.ofBits x.toBits).natValue?

/-- The larger of two doubles; a number wins against no number. -/
def larger (x y : Float) : Float :=
  if x.isNaN then y else if y.isNaN then x else if x < y then y else x

instance : RealNumber Float where
  one := 1.0
  zero := 0.0
  ofNat := Float.ofNat
  lt x y := decide (x < y)
  le x y := decide (x ≤ y)
  abs := Float.abs
  sqrt := Float.sqrt
  max := larger
  decimal m e := ofDecimal m (-(e : Int))
  natValue? := natValue?

instance : Numeral Float where
  plain := write plainLayout
  marked := write markedLayout
  read? := read?

theorem natValue?_three : natValue? 3.0 = some 3 := by decide +kernel

theorem natValue?_half : natValue? 0.5 = none := by decide +kernel

theorem hypotenuse_three_four : (hypotenuse 3.0 4.0 == 5.0) = true := by decide +kernel

end LieNormalForm.Double
