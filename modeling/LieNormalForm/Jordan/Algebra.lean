import LieNormalForm.CoeffMatrix

/-!
# The linear algebra that a Jordan basis rests on

Eigenvalues, singular values and inverses are computed by some routine; what is done with
the results does not depend on which one. `LinearAlgebra` collects what is asked of it.
-/

namespace LieNormalForm

/-- A singular value decomposition. -/
structure Singular (C R : Type) where
  /-- Each singular value with its right singular vector. -/
  values : List (R × List C)
  /-- A solution of the linear equations with the given right side, singular values up to the
  threshold taken as zero. -/
  solve? : List C → R → Option (List C)

/-- The right singular vectors whose singular value does not pass the threshold. -/
def Singular.kernel {C R : Type} [RealNumber R] (s : Singular C R) (threshold : R) :
    List (List C) :=
  (s.values.filter fun v => RealNumber.le v.1 threshold).map Prod.snd

structure LinearAlgebra (C R : Type) where
  /-- The eigenvalues of a square matrix, each as often as its multiplicity. -/
  spectrum? : CoeffMatrix C → Option (List C)
  singular : CoeffMatrix C → Singular C R
  inverse? : CoeffMatrix C → Option (CoeffMatrix C)

namespace CoeffMatrix

variable {C R : Type} [RealNumber R] [ComplexNumber C R]

/-- The root of the sum of the squared sizes of all entries. -/
def frobenius (m : CoeffMatrix C) : R :=
  RealNumber.sqrt <| m.entries.foldl
    (fun sum c => sum + (ComplexNumber.re c * ComplexNumber.re c
      + ComplexNumber.im c * ComplexNumber.im c)) 0

end CoeffMatrix

end LieNormalForm
