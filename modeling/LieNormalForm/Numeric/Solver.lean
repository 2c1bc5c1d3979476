import LieNormalForm.Numeric.Inverse
import LieNormalForm.Numeric.Singular
import LieNormalForm.Numeric.Spectrum

/-!
# The routines put together
-/

namespace LieNormalForm

namespace LinearAlgebra

variable {C R : Type} [RealNumber R] [ComplexNumber C R]

/-- Eigenvalues and singular values by rotations, inverses by cofactors or elimination. -/
def numeric : LinearAlgebra C R :=
  ⟨CoeffMatrix.eigenvalues?, CoeffMatrix.singularOf, CoeffMatrix.inverseOf?⟩

theorem numeric_spectrum_length {m : CoeffMatrix C} {spectrum : List C}
    (h : (numeric : LinearAlgebra C R).spectrum? m = some spectrum) :
    spectrum.length = m.nrows :=
  CoeffMatrix.eigenvalues?_length h

end LinearAlgebra

end LieNormalForm
