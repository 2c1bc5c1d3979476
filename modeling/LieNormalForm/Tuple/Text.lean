import LieNormalForm.Expression.Expand
import LieNormalForm.Poly.Tolerance
import LieNormalForm.Tuple.Basic

/-!
# Tuples as texts, and up to a tolerance
-/

namespace LieNormalForm

namespace Tuple

variable {C R : Type} [RealNumber R]

/-- Equal shape, and components equal up to the tolerance. -/
def approxEq {W : Type} [Coefficient C W] [Normed C R] (f g : Tuple C) (tolerance : R) : Bool :=
  f.nvars == g.nvars && f.size == g.size
    && (List.zip f.components g.components).all fun pq => pq.1.approxEq pq.2 tolerance

variable [ComplexNumber C R]

/-- Sets real and imaginary parts below the tolerance to zero. -/
def chop (f : Tuple C) (tolerance : R) : Tuple C := f.map fun p => p.chop tolerance

variable [Numeral R]

/-- Reads one polynomial for each component. -/
def parse (vars : Variables) (equations : List String) : Except Error (Tuple C) :=
  match equations.mapM (Poly.parse vars) with
  | .error e => .error e
  | .ok components => ofComponents vars.size components

/-- The text of every component. -/
def render (vars : Variables) (f : Tuple C) : List String := f.components.map (Poly.render vars)

end Tuple

end LieNormalForm
