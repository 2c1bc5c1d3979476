import LieNormalForm.Double.Complex
import LieNormalForm.Jordan.Reduction

/-!
# What a reduction shows whatever basis was found

Jordan bases are not unique: eigenvalues come in any order and eigenvectors in any size. A
report holds what does not depend on the choice: the sorted eigenvalues, whether the reduced
linear part has Jordan form and how many ones stand above its diagonal, and the reduced
field carried back into the old variables. Numbers are rounded to eight places.
-/

namespace LieNormalForm

namespace Double

/-- Eight decimal places, a half away from zero, zero without a sign. -/
def roundEight (x : Float) : Float := (x * 100000000.0).round / 100000000.0 + 0.0

end Double

namespace FloatComplex

/-- Both parts to eight places. -/
def rounded (c : FloatComplex) : FloatComplex := ⟨Double.roundEight c.re, Double.roundEight c.im⟩

/-- Real parts first, then imaginary parts. -/
def standsBefore (a b : FloatComplex) : Bool :=
  decide (a.re < b.re) || (a.re == b.re && decide (a.im ≤ b.im))

end FloatComplex

/-- The rounded eigenvalues in their order. -/
def roundedSpectrum (spectrum : List FloatComplex) : List FloatComplex :=
  (spectrum.map FloatComplex.rounded).mergeSort FloatComplex.standsBefore

/-- The terms of every component with rounded coefficients, without those that vanish. -/
def roundedTerms (f : Tuple FloatComplex) : List (List (Term FloatComplex)) :=
  f.components.map fun p => nonzeroTerms (p.terms.map fun t => (t.1, t.2.rounded))

namespace CoeffMatrix

/-- How far an entry may be from zero or one in a Jordan matrix. -/
def jordanTolerance : Float := Double.ofDecimal 1 (-6)

/-- The entry above the diagonal in row `i` is one. -/
def hasSuperdiagonalOne (m : CoeffMatrix FloatComplex) (i : Nat) : Bool :=
  decide (Normed.norm (m.entry i (i + 1) - 1) < jordanTolerance)

/-- Off the diagonal everything is zero, apart from ones right above the diagonal. -/
def isJordan (m : CoeffMatrix FloatComplex) : Bool :=
  (List.range m.nrows).all fun i => (List.range m.ncols).all fun j =>
    i == j || decide (Normed.norm (m.entry i j) < jordanTolerance)
      || (j == i + 1 && m.hasSuperdiagonalOne i)

/-- The number of ones right above the diagonal. -/
def superdiagonalOnes (m : CoeffMatrix FloatComplex) : Nat :=
  ((List.range (m.nrows - 1)).filter m.hasSuperdiagonalOne).length

/-- The diagonal of a matrix. -/
def diagonal (m : CoeffMatrix FloatComplex) : List FloatComplex :=
  (List.range (min m.nrows m.ncols)).map fun k => m.entry k k

end CoeffMatrix

/-- What is known of a reduction. -/
structure JordanReport where
  eigenvalues : List FloatComplex
  isJordan : Bool
  superdiagonalOnes : Nat
  forwardIsBasis : Bool
  inverseOk : Bool
  recovered : List (List (Term FloatComplex))

namespace JordanReduction

/-- The two changes of variables undo each other. -/
def inverseOk (r : JordanReduction FloatComplex) : Except Error Bool :=
  match r.forward.substitute r.inverse with
  | .error e => .error e
  | .ok there => .ok (there.approxEq (.identity there.nvars) (Double.ofDecimal 1 (-7)))

def report (r : JordanReduction FloatComplex) : Except Error JordanReport :=
  match r.inverseOk with
  | .error e => .error e
  | .ok ok =>
    match r.back r.field with
    | .error e => .error e
    | .ok recovered =>
      .ok ⟨roundedSpectrum r.eigenvalues, r.field.linearPart.isJordan,
        r.field.linearPart.superdiagonalOnes, r.forward == Tuple.linear r.basis, ok,
        roundedTerms recovered⟩

end JordanReduction

/-- What is known of a basis on its own. -/
structure BasisReport where
  nrows : Nat
  ncols : Nat
  isJordan : Bool
  superdiagonalOnes : Nat
  /-- The rounded eigenvalues, if the basis is invertible. -/
  eigenvalues? : Option (List FloatComplex)

/-- The report on a basis of a matrix. -/
def CoeffMatrix.basisReport (L : LinearAlgebra FloatComplex Float)
    (m basis : CoeffMatrix FloatComplex) : BasisReport :=
  match L.inverse? basis with
  | none => ⟨basis.nrows, basis.ncols, false, 0, none⟩
  | some inverse =>
    let reduced := (inverse.mul m).mul basis
    ⟨basis.nrows, basis.ncols, reduced.isJordan, reduced.superdiagonalOnes,
      some (roundedSpectrum reduced.diagonal)⟩

end LieNormalForm
