import LieNormalForm.Jordan.Basis
import LieNormalForm.Tuple.Linear
import LieNormalForm.Tuple.Text

/-!
# Reduction to Jordan form

A field is written in the coordinates of a Jordan basis `S` of its linear part: with `x = S·u`
the field becomes `S⁻¹·X(S·u)`. What rounding leaves behind is set to zero.
-/

namespace LieNormalForm

/-- How far rounding may go. -/
structure JordanSettings (R : Type) where
  /-- The relative threshold for ranks and remainders; eigenvalues merge within its root. -/
  tolerance : R

/-- The settings unless others are given. -/
def JordanSettings.standard {R : Type} [RealNumber R] : JordanSettings R :=
  ⟨RealNumber.decimal 1 9⟩

/-- A field in the coordinates of a Jordan basis of its linear part. -/
structure JordanReduction (C : Type) where
  field : Tuple C
  /-- The diagonal of the reduced linear part. -/
  eigenvalues : List C
  basis : CoeffMatrix C
  /-- The old variables in terms of the new ones. -/
  forward : Tuple C
  /-- The new variables in terms of the old ones. -/
  inverse : Tuple C

namespace Tuple

variable {C R : Type} [RealNumber R] [Numeral R] [ComplexNumber C R]

/-- What a reduction asks of its input, in the order of the answers. -/
def checkJordan (field : Tuple C) (oldVars newVars : Variables) (tolerance : R) :
    Except Error Unit :=
  match field.checkField oldVars .jordanField with
  | .error e => .error e
  | .ok _ =>
    if newVars.size ≠ oldVars.size then .error (.shape .newVariables oldVars.size newVars.size)
    else if RealNumber.le tolerance 0 then .error (.jordan .toleranceNotPositive)
    else .ok ()

omit [Numeral R] [ComplexNumber C R] in
theorem checkJordan_ok {field : Tuple C} {oldVars newVars : Variables} {tolerance : R} {u : Unit}
    (h : field.checkJordan oldVars newVars tolerance = .ok u) :
    field.size = oldVars.size ∧ field.nvars = oldVars.size ∧ newVars.size = oldVars.size := by
  unfold checkJordan at h
  split at h
  · cases h
  · rename_i hfield
    split at h
    · cases h
    · rename_i hsize
      obtain ⟨hfieldSize, hnvars⟩ := checkField_ok hfield
      exact ⟨hfieldSize, hnvars, Decidable.not_not.1 hsize⟩

/-- The field `S⁻¹·X(S·u)`, before small parts are set to zero. -/
def conjugate (field : Tuple C) (basis inverse : CoeffMatrix C) : Except Error (Tuple C) :=
  match field.substitute (linear basis) with
  | .error e => .error e
  | .ok moved => .ok (moved.applyMatrix inverse)

/-- The field in the coordinates of a Jordan basis of its linear part. -/
def jordan (L : LinearAlgebra C R) (field : Tuple C) (oldVars newVars : Variables)
    (settings : JordanSettings R) : Except Error (JordanReduction C) :=
  match field.checkJordan oldVars newVars settings.tolerance with
  | .error e => .error e
  | .ok _ =>
    match L.jordanBasis field.linearPart settings.tolerance with
    | .error e => .error e
    | .ok basis =>
      match L.inverse? basis with
      | none => .error (.jordan .singularBasis)
      | some inverse =>
        match field.conjugate basis inverse with
        | .error e => .error e
        | .ok conjugated =>
          let reduced := conjugated.chop settings.tolerance
          .ok ⟨reduced, reduced.diagonalEigenvalues, basis, linear basis, linear inverse⟩

end Tuple

namespace JordanReduction

variable {C R : Type} [RealNumber R] [ComplexNumber C R]

/-- A field in the new variables, written in the old ones: `S·F(S⁻¹·x)`. -/
def back (r : JordanReduction C) (f : Tuple C) : Except Error (Tuple C) :=
  match f.substitute r.inverse with
  | .error e => .error e
  | .ok moved => .ok (moved.applyMatrix r.basis)

/-- A reduction that succeeds has passed every step. -/
theorem of_jordan [Numeral R] {L : LinearAlgebra C R} {field : Tuple C}
    {oldVars newVars : Variables} {settings : JordanSettings R} {r : JordanReduction C}
    (h : field.jordan L oldVars newVars settings = .ok r) :
    field.checkJordan oldVars newVars settings.tolerance = .ok () ∧
      L.jordanBasis field.linearPart settings.tolerance = .ok r.basis ∧
      ∃ inverse conjugated, L.inverse? r.basis = some inverse ∧
        field.conjugate r.basis inverse = .ok conjugated ∧
        r = ⟨conjugated.chop settings.tolerance,
          (conjugated.chop settings.tolerance).diagonalEigenvalues, r.basis, Tuple.linear r.basis,
          Tuple.linear inverse⟩ := by
  unfold Tuple.jordan at h
  split at h
  · cases h
  · rename_i hcheck
    split at h
    · cases h
    · rename_i basis hbasis
      split at h
      · cases h
      · rename_i inverse hinverse
        split at h
        · cases h
        · rename_i conjugated hconjugated
          cases h
          exact ⟨hcheck, hbasis, inverse, conjugated, hinverse, hconjugated, rfl⟩

end JordanReduction

end LieNormalForm
