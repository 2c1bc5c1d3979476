/-!
# Arithmetic without laws

Everything in this library is computed over a coefficient type that is known only
through its operations. No law is assumed: rounded complex numbers, exact complex
numbers and exact fields all run the same definitions, and a statement that needs a
law asks for it where it is stated.

`Weight` holds the factorials and binomial coefficients of a Lie series, `Coefficient`
the numbers that stand in front of monomials, `Normed` a size to be compared with a
tolerance, and `ComplexNumber` coefficients with a real and an imaginary part.
-/

namespace LieNormalForm

/-- Real weights: factorials, binomial coefficients and their reciprocals. -/
class Weight (W : Type) extends One W, Mul W, Div W where
  /-- The weight nearest to a natural number. -/
  ofNat : Nat → W

/-- Coefficient arithmetic, with weights in `W`. -/
class Coefficient (C : Type) (W : outParam Type)
    extends Zero C, One C, Add C, Sub C, Neg C, Mul C, Div C where
  /-- Terms whose coefficient passes this test are not stored. -/
  isZero : C → Bool
  /-- A weight as a coefficient. -/
  ofWeight : W → C
  /-- A coefficient taken a natural number of times. -/
  mulNat : C → Nat → C
  /-- A coefficient divided by a natural number. -/
  divNat : C → Nat → C

/-- Real numbers with the comparisons and roots that tolerances need. -/
class RealNumber (R : Type) extends Weight R, Zero R, Add R, Sub R, Neg R, BEq R where
  lt : R → R → Bool
  le : R → R → Bool
  abs : R → R
  sqrt : R → R
  max : R → R → R
  /-- `decimal m e` is the number written `m·10⁻ᵉ`. -/
  decimal : Nat → Nat → R
  /-- The natural number that this number is exactly, if there is one. -/
  natValue? : R → Option Nat

/-- A size that is compared with tolerances. -/
class Normed (C : Type) (R : outParam Type) where
  norm : C → R

/-- Coefficients with a real and an imaginary part. -/
class ComplexNumber (C : Type) (R : outParam Type) [RealNumber R]
    extends Coefficient C R, Normed C R where
  ofParts : R → R → C
  re : C → R
  im : C → R

/-- Real numbers that are written and read as text. -/
class Numeral (R : Type) where
  /-- The positional form, without a point for whole numbers. -/
  plain : R → String
  /-- The form shown for number tokens, always with a point or an exponent. -/
  marked : R → String
  read? : String → Option R

namespace Coefficient

variable {C W : Type} [Coefficient C W]

/-- The sum of a list, from the left, starting at zero. -/
def sum (xs : List C) : C := xs.foldl (· + ·) 0

theorem sum_nil : sum ([] : List C) = 0 := rfl

theorem sum_concat (xs : List C) (x : C) : sum (xs ++ [x]) = sum xs + x := by simp [sum]

/-- Drops the factors of two of the exponent by squaring, within `budget` halvings. -/
def squareWhileEven : Nat → C → Nat → C × Nat
  | 0, x, e => (x, e)
  | budget + 1, x, e => if e % 2 = 0 then squareWhileEven budget (x * x) (e / 2) else (x, e)

/-- Multiplies the remaining binary digits of the exponent into `acc`, within `budget` halvings. -/
def multiplyOddSquares : Nat → C → C → Nat → C
  | 0, _, acc, _ => acc
  | budget + 1, x, acc, e =>
    if e ≤ 1 then acc
    else
      let e' := e / 2
      let x' := x * x
      multiplyOddSquares budget x' (if e' % 2 = 1 then acc * x' else acc) e'

/-- Natural powers by repeated squaring: even factors of the exponent first, then the odd rest. -/
def power (x : C) (e : Nat) : C :=
  if e = 0 then 1
  else
    let (y, odd) := squareWhileEven e x e
    if odd = 1 then y else multiplyOddSquares odd y y odd

theorem power_zero (x : C) : power x 0 = 1 := rfl

theorem power_one (x : C) : power x 1 = x := rfl

theorem power_two (x : C) : power x 2 = x * x := rfl

theorem power_three (x : C) : power x 3 = x * (x * x) := rfl

end Coefficient

namespace ComplexNumber

variable {C R : Type} [RealNumber R] [ComplexNumber C R]

/-- A real number as a coefficient. -/
def ofReal (x : R) : C := ofParts x 0

/-- The imaginary unit. -/
def unit : C := ofParts 0 1

def conj (c : C) : C := ofParts (re c) (-im c)

/-- The reciprocal: the conjugate over the squared size, part by part. -/
def inv (c : C) : C :=
  let size := re c * re c + im c * im c
  ofParts (re c / size) (-im c / size)

end ComplexNumber

end LieNormalForm
