import LieNormalForm.Poly.Basic

/-!
# Polynomials up to a tolerance

`approxEq` compares two polynomials coefficient by coefficient, `chop` sets small real and
imaginary parts to zero.
-/

namespace LieNormalForm

namespace Poly

variable {C R : Type} [RealNumber R]

/-- Equal number of variables, and no coefficient of the difference above the tolerance. -/
def approxEq {W : Type} [Coefficient C W] [Normed C R] (p q : Poly C) (tolerance : R) : Bool :=
  p.nvars == q.nvars && (p - q).terms.all fun t => RealNumber.le (Normed.norm t.2) tolerance

variable [ComplexNumber C R]

/-- Sets a part below the tolerance to zero. -/
def chopPart (tolerance x : R) : R :=
  if RealNumber.lt (RealNumber.abs x) tolerance then 0 else x

def chopCoefficient (tolerance : R) (c : C) : C :=
  ComplexNumber.ofParts (chopPart tolerance (ComplexNumber.re c))
    (chopPart tolerance (ComplexNumber.im c))

/-- Sets real and imaginary parts below the tolerance to zero. -/
def chop (p : Poly C) (tolerance : R) : Poly C :=
  ⟨p.nvars, nonzeroTerms (p.terms.map fun t => (t.1, chopCoefficient tolerance t.2))⟩

theorem chop_nvars (p : Poly C) (tolerance : R) : (p.chop tolerance).nvars = p.nvars := rfl

end Poly

end LieNormalForm
