import LieNormalForm.Tuple.Basic

/-!
# Linear tuples and matrices

`linear M` is the tuple `x ↦ M·x`, `linearPart` reads the coefficients of degree one back,
and `applyMatrix` mixes the components of a tuple with a constant matrix.
-/

namespace LieNormalForm

namespace Tuple

variable {C W : Type} [Coefficient C W]

/-- One row of a linear tuple: `Σ_j m_j·x_j`. -/
def linearRow (n : Nat) (entry : Nat → C) : Poly C :=
  (List.range n).foldl (fun row j => row + (Poly.coordinate n j).scale (entry j)) (Poly.zero n)

/-- The tuple `x ↦ M·x`. -/
def linear (m : CoeffMatrix C) : Tuple C :=
  ⟨m.ncols, (List.range m.nrows).map fun i => linearRow m.ncols (m.entry i)⟩

/-- The matrix whose entry `(i, j)` stands in front of `x_j` in component `i`. -/
def linearPart (f : Tuple C) : CoeffMatrix C :=
  .ofFn f.size f.nvars fun i j => (f.component i).coefficient (Monomial.coordinate f.nvars j)

/-- One row of a mixed tuple: `Σ_j m_j·f_j`, entries zero left out. -/
def mixedRow (n : Nat) (components : List (Poly C)) (entry : Nat → C) : Poly C :=
  components.zipIdx.foldl
    (fun row pj =>
      if Coefficient.isZero (entry pj.2) then row else row + pj.1.scale (entry pj.2))
    (Poly.zero n)

/-- The tuple `M·f`. -/
def applyMatrix (f : Tuple C) (m : CoeffMatrix C) : Tuple C :=
  ⟨f.nvars, (List.range m.nrows).map fun i => mixedRow f.nvars f.components (m.entry i)⟩

/-- The diagonal of the linear part. -/
def diagonalEigenvalues (f : Tuple C) : List C :=
  let m := f.linearPart
  (List.range (min f.size f.nvars)).map fun k => m.entry k k

theorem linear_nvars (m : CoeffMatrix C) : (linear m).nvars = m.ncols := rfl

theorem linear_size (m : CoeffMatrix C) : (linear m).size = m.nrows := by simp [linear, size]

theorem linearPart_nrows (f : Tuple C) : f.linearPart.nrows = f.size := rfl

theorem linearPart_ncols (f : Tuple C) : f.linearPart.ncols = f.nvars := rfl

theorem applyMatrix_size (f : Tuple C) (m : CoeffMatrix C) : (f.applyMatrix m).size = m.nrows := by
  simp [applyMatrix, size]

theorem diagonalEigenvalues_length (f : Tuple C) :
    f.diagonalEigenvalues.length = min f.size f.nvars := by
  simp [diagonalEigenvalues]

end Tuple

end LieNormalForm
