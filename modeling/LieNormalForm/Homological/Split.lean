import LieNormalForm.Resonance
import LieNormalForm.Tuple.Linear

/-!
# The homological equation

`[A, Y] + G = F` asks for a generator `Y` and a remainder `G`, the part of the forcing term
`F` that stays. Both solvers see the same checked input: `A` and `F` are fields in the same
variables, and every variable has its eigenvalue.
-/

namespace LieNormalForm

/-- A solution of the homological equation. -/
structure Split (C : Type) where
  remainder : Tuple C
  generator : Tuple C

namespace Split

variable {C W : Type} [Coefficient C W]

/-- Fails at the first size that is not the expected one. -/
def requireSizes (expected : Nat) : List (Checked × Nat) → Except Error Unit
  | [] => .ok ()
  | (what, found) :: rest =>
    if found = expected then requireSizes expected rest
    else .error (.shape what expected found)

/-- The shapes that a solver needs. -/
def checkInput (linear : Tuple C) (eigenvalues : List C) (forcing : Tuple C) :
    Except Error Unit :=
  requireSizes forcing.nvars
    [(.forcingTerm, forcing.size), (.linearPart, linear.size), (.linearPart, linear.nvars),
      (.eigenvalues, eigenvalues.length)]

theorem requireSizes_ok {expected : Nat} {sizes : List (Checked × Nat)} {u : Unit}
    (h : requireSizes expected sizes = .ok u) : ∀ s ∈ sizes, s.2 = expected := by
  induction sizes with
  | nil => simp
  | cons s rest ih =>
    simp only [requireSizes] at h
    split at h
    · rename_i hs
      simpa [hs] using ih h
    · cases h

theorem checkInput_ok {linear forcing : Tuple C} {eigenvalues : List C} {u : Unit}
    (h : checkInput linear eigenvalues forcing = .ok u) :
    forcing.size = forcing.nvars ∧ linear.size = forcing.nvars ∧ linear.nvars = forcing.nvars ∧
      eigenvalues.length = forcing.nvars := by
  have := requireSizes_ok h
  simpa using this

end Split

end LieNormalForm
