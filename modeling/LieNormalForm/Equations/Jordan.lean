import LieNormalForm.Jordan.Reduction
import LieNormalForm.Equations.Basic

/-!
# Reduced systems as text

A reduction to Jordan form written as equations: the reduced field and the change of
variables in the new names, its inverse in the old ones. `read` takes the texts back.
-/

namespace LieNormalForm

/-- A reduction as text. -/
structure WrittenReduction (C : Type) where
  field : List String
  eigenvalues : List C
  /-- The basis by rows. -/
  basis : List (List C)
  forward : List String
  inverse : List String

namespace Equations

variable {C R : Type} [RealNumber R] [Numeral R] [ComplexNumber C R]

/-- A tolerance above zero, or else the standard one. -/
def settingsFor (tolerance : R) : JordanSettings R :=
  if RealNumber.lt 0 tolerance then ⟨tolerance⟩ else .standard

/-- Reduces a system to Jordan form in new variables. -/
def jordan (L : LinearAlgebra C R) (s : Equations C) (newNames : List String) (tolerance : R) :
    Except EquationError (WrittenReduction C) :=
  match EquationTask.readNewNames.run (Variables.ofNames newNames) with
  | .error e => .error e
  | .ok newVars =>
    match EquationTask.jordan.run (s.field.jordan L s.vars newVars (settingsFor tolerance)) with
    | .error e => .error e
    | .ok r =>
      .ok ⟨r.field.render newVars, r.eigenvalues, r.basis.rows, r.forward.render newVars,
        r.inverse.render s.vars⟩

end Equations

namespace WrittenReduction

variable {C R : Type} [RealNumber R] [Numeral R] [ComplexNumber C R]

/-- Reads the texts of a reduction. -/
def read (w : WrittenReduction C) (oldVars newVars : Variables) :
    Except EquationError (JordanReduction C) :=
  match Equations.readTuple newVars w.field with
  | .error e => .error e
  | .ok field =>
    match Equations.readTuple newVars w.forward with
    | .error e => .error e
    | .ok forward =>
      match Equations.readTuple oldVars w.inverse with
      | .error e => .error e
      | .ok inverse => .ok ⟨field, w.eigenvalues, .ofRows w.basis, forward, inverse⟩

end WrittenReduction

end LieNormalForm
