import LieNormalForm.Numeric.Cofactor

/-!
# Inverse matrices

Up to four rows a matrix is inverted by its cofactors, from five rows on by elimination. There
the rows are continued by the rows of the identity, and column by column the row with the
largest entry is scaled to one there and subtracted from all others; in the end the right
halves are the rows of the inverse. A matrix is given up when the largest entry is exactly zero.
-/

namespace LieNormalForm

namespace CoeffMatrix

variable {C R : Type} [RealNumber R] [ComplexNumber C R]

/-- Finished rows, one for each column so far, and the rows that are left. -/
structure Elimination (C : Type) where
  done : List (List C)
  left : List (List C)

/-- Takes the row with the largest entry in column `k` out of a list. -/
def takeLargest (k : Nat) (best : List C) : List (List C) → List C × List (List C)
  | [] => (best, [])
  | row :: rows =>
    if RealNumber.lt (Normed.norm (best.getD k 0)) (Normed.norm (row.getD k 0)) then
      let rest := takeLargest k row rows
      (rest.1, best :: rest.2)
    else
      let rest := takeLargest k best rows
      (rest.1, row :: rest.2)

/-- Subtracts a multiple of the pivot row so that the entry in column `k` vanishes. -/
def clearColumn (k : Nat) (pivot row : List C) : List C :=
  let factor := row.getD k 0
  List.zipWith (fun p x => x - factor * p) pivot row

/-- Handles column `k`. -/
def eliminateColumn (s : Elimination C) (k : Nat) : Option (Elimination C) :=
  match s.left with
  | [] => none
  | first :: rows =>
    let taken := takeLargest k first rows
    let entry := taken.1.getD k 0
    if Coefficient.isZero entry then none
    else
      let pivot := taken.1.map fun x => x / entry
      some ⟨s.done.map (clearColumn k pivot) ++ [pivot], taken.2.map (clearColumn k pivot)⟩

/-- The inverse of a square matrix by elimination. -/
def eliminationInverse? (m : CoeffMatrix C) : Option (CoeffMatrix C) :=
  let n := m.nrows
  let rows := List.zipWith (· ++ ·) m.rows (identity n : CoeffMatrix C).rows
  match (List.range n).foldlM eliminateColumn ⟨[], rows⟩ with
  | none => none
  | some s => some ⟨n, n, s.done.map (List.drop n)⟩

/-- The inverse of a square matrix. -/
def inverseOf? (m : CoeffMatrix C) : Option (CoeffMatrix C) :=
  if m.nrows ≤ 4 then m.cofactorInverse? else m.eliminationInverse?

theorem takeLargest_length (k : Nat) (best : List C) (rows : List (List C)) :
    (takeLargest k best rows).2.length = rows.length := by
  induction rows generalizing best with
  | nil => rfl
  | cons row rows ih =>
    simp only [takeLargest]
    split <;> simp [ih]

end CoeffMatrix

end LieNormalForm
