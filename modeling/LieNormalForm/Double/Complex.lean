import LieNormalForm.Double.Real

/-!
# Complex numbers over doubles

The coefficients of computed normal forms. Sums, products and quotients are the textbook
formulas on the two parts, one rounding for each operation; a number is zero when both
parts are zero, of either sign.
-/

namespace LieNormalForm

/-- A complex number with a double for each part. -/
structure FloatComplex where
  re : Float
  im : Float

namespace FloatComplex

def add (a b : FloatComplex) : FloatComplex := ⟨a.re + b.re, a.im + b.im⟩

def sub (a b : FloatComplex) : FloatComplex := ⟨a.re - b.re, a.im - b.im⟩

def neg (a : FloatComplex) : FloatComplex := ⟨-a.re, -a.im⟩

def mul (a b : FloatComplex) : FloatComplex :=
  ⟨a.re * b.re - a.im * b.im, a.re * b.im + a.im * b.re⟩

def div (a b : FloatComplex) : FloatComplex :=
  let size := b.re * b.re + b.im * b.im
  ⟨(a.re * b.re + a.im * b.im) / size, (a.im * b.re - a.re * b.im) / size⟩

def isZero (a : FloatComplex) : Bool := a.re == 0.0 && a.im == 0.0

/-- A number with imaginary part zero. -/
def ofReal (x : Float) : FloatComplex := ⟨x, 0.0⟩

def mulReal (a : FloatComplex) (x : Float) : FloatComplex := ⟨a.re * x, a.im * x⟩

def divReal (a : FloatComplex) (x : Float) : FloatComplex := ⟨a.re / x, a.im / x⟩

instance : BEq FloatComplex where
  beq a b := a.re == b.re && a.im == b.im

instance : ComplexNumber FloatComplex Float where
  zero := ofReal 0.0
  one := ofReal 1.0
  add := add
  sub := sub
  neg := neg
  mul := mul
  div := div
  isZero := isZero
  ofWeight := ofReal
  mulNat a n := a.mulReal (Float.ofNat n)
  divNat a n := a.divReal (Float.ofNat n)
  norm a := Double.hypotenuse a.re a.im
  ofParts := mk
  re := re
  im := im

theorem isZero_zero : isZero (0 : FloatComplex) = true := by decide +kernel

theorem isZero_neg_zero : isZero ⟨-0.0, -0.0⟩ = true := by decide +kernel

end FloatComplex

end LieNormalForm
