import LieNormalForm.CoeffMatrix

/-!
# Determinants and cofactors

Determinants by expansion along the first row, and the inverse of a small matrix as the
transposed matrix of its cofactors over the determinant. A matrix is given up when its
determinant is exactly zero, which for entries of very different sizes happens by underflow too.
-/

namespace LieNormalForm

namespace CoeffMatrix

variable {C R : Type} [RealNumber R] [ComplexNumber C R]

/-- The rows without row `i`, each without its entry `j`. -/
def minor (rows : List (List C)) (i j : Nat) : List (List C) :=
  (rows.eraseIdx i).map fun row => row.eraseIdx j

/-- The determinant of the first `n` rows, expanded along the first of them. -/
def expansion : Nat → List (List C) → C
  | 0, _ => 1
  | 1, rows => (rows.headD []).headD 0
  | n + 2, rows =>
    (rows.headD []).zipIdx.foldl
      (fun sum xj =>
        let product := xj.1 * expansion (n + 1) (minor rows 0 xj.2)
        if xj.2 % 2 = 0 then sum + product else sum - product) 0

def determinant (m : CoeffMatrix C) : C := expansion m.nrows m.rows

/-- The determinant without row `i` and column `j`, with its sign. -/
def cofactor (m : CoeffMatrix C) (i j : Nat) : C :=
  let d := expansion (m.nrows - 1) (minor m.rows i j)
  if (i + j) % 2 = 0 then d else -d

/-- The inverse of a square matrix by its cofactors. -/
def cofactorInverse? (m : CoeffMatrix C) : Option (CoeffMatrix C) :=
  let d := m.determinant
  if Coefficient.isZero d then none
  else some (ofFn m.nrows m.nrows fun i j => m.cofactor j i / d)

theorem cofactorInverse?_eq_none_iff (m : CoeffMatrix C) :
    m.cofactorInverse? = none ↔ Coefficient.isZero m.determinant = true := by
  unfold cofactorInverse?
  dsimp only
  split <;> simp_all

theorem cofactorInverse?_nrows {m inverse : CoeffMatrix C} (h : m.cofactorInverse? = some inverse) :
    inverse.nrows = m.nrows := by
  unfold cofactorInverse? at h
  dsimp only at h
  split at h
  · cases h
  · cases h
    rfl

end CoeffMatrix

end LieNormalForm
