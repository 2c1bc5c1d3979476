import LieNormalForm.Tuple.Basic

/-!
# Jacobians and directional derivatives

The matrix of partial derivatives `∂f_i/∂x_j`, and its product with a vector of
polynomials. Products with a zero factor are left out of the sums.
-/

namespace LieNormalForm

/-- The partial derivatives of a tuple, one row for each component. -/
structure Jacobian (C : Type) where
  nvars : Nat
  rows : List (List (Poly C))

namespace Jacobian

variable {C W : Type} [Coefficient C W]

/-- The partial derivatives of one function by every variable. -/
def gradient (n : Nat) (p : Poly C) : List (Poly C) := (List.range n).map fun j => p.derivative j

def ofTuple (f : Tuple C) : Jacobian C := ⟨f.nvars, f.components.map (gradient f.nvars)⟩

def nrows (J : Jacobian C) : Nat := J.rows.length

def ncols (J : Jacobian C) : Nat := J.nvars

/-- Adds a product, unless one factor is zero. -/
def addProduct (sum : Poly C) (pq : Poly C × Poly C) : Poly C :=
  if pq.1.isZero || pq.2.isZero then sum else sum + pq.1 * pq.2

/-- The product of a row with a vector. -/
def contractRow (v : Tuple C) (row : List (Poly C)) : Poly C :=
  (List.zip row v.components).foldl addProduct (Poly.zero v.nvars)

/-- The product `J·v`. -/
def contract (J : Jacobian C) (v : Tuple C) : Tuple C := ⟨v.nvars, J.rows.map (contractRow v)⟩

theorem contract_size (J : Jacobian C) (v : Tuple C) : (J.contract v).size = J.nrows := by
  simp [contract, Tuple.size, nrows]

theorem ofTuple_nrows (f : Tuple C) : (ofTuple f).nrows = f.size := by
  simp [ofTuple, nrows, Tuple.size]

end Jacobian

namespace Tuple

variable {C W : Type} [Coefficient C W]

/-- The Jacobian of functions in the given variables. -/
def jacobian (f : Tuple C) (vars : Variables) : Except Error (Jacobian C) :=
  match f.checkFunctions vars .jacobianArgument with
  | .error e => .error e
  | .ok _ => .ok (Jacobian.ofTuple f)

/-- `Df·w`, the derivative of every function along the field `w`. -/
def directionalDerivative (f w : Tuple C) : Tuple C := (Jacobian.ofTuple f).contract w

/-- `[x, y] = Dx·y − Dy·x`. -/
def bracket (x y : Tuple C) : Tuple C := x.directionalDerivative y - y.directionalDerivative x

/-- The bracket of two fields in the given variables. -/
def lieBracket (x y : Tuple C) (vars : Variables) : Except Error (Tuple C) :=
  match x.checkField vars .bracketFirst with
  | .error e => .error e
  | .ok _ =>
    match y.checkField vars .bracketSecond with
    | .error e => .error e
    | .ok _ => .ok (x.bracket y)

theorem directionalDerivative_size (f w : Tuple C) : (f.directionalDerivative w).size = f.size := by
  rw [directionalDerivative, Jacobian.contract_size, Jacobian.ofTuple_nrows]

theorem directionalDerivative_nvars (f w : Tuple C) :
    (f.directionalDerivative w).nvars = w.nvars := rfl

theorem bracket_size (x y : Tuple C) : (x.bracket y).size = x.size := by
  rw [bracket, sub_size, directionalDerivative_size]

end Tuple

end LieNormalForm
