import LieNormalForm.Graded.Table
import LieNormalForm.Graded.Weights
import LieNormalForm.Jacobian

/-!
# Seeds, sums and the Lie recurrence

A tuple is split by degree into seeds with factorial weights, a family of tuples is summed
up with the inverse weights, and `recurrence` is the rule that carries the entries of a
table from one row to the next.
-/

namespace LieNormalForm

variable {C W : Type} [Weight W] [Coefficient C W]

namespace Tuple

/-- `m!` times the part of degree `m + offset`. -/
def seed (f : Tuple C) (offset m : Nat) : Tuple C :=
  (f.homogeneousPart (m + offset)).scaleWeight (Weight.factorial m)

/-- The first `count` seeds. -/
def seeds (f : Tuple C) (offset count : Nat) : List (Tuple C) :=
  (List.range count).map (f.seed offset)

/-- The sum of `f_i / i!` onto a first tuple, counted from `i`. -/
def weightedSumFrom (i : Nat) (sum : Tuple C) : List (Tuple C) → Tuple C
  | [] => sum
  | f :: fs => weightedSumFrom (i + 1) (sum + f.scaleWeight (Weight.inverseFactorial i)) fs

/-- `Σ_i f_i / i!`, in the shape of `like`. -/
def weightedSum (like : Tuple C) (fs : List (Tuple C)) : Tuple C :=
  weightedSumFrom 0 (zeros like.size like.nvars) fs

theorem seed_size (f : Tuple C) (offset m : Nat) : (f.seed offset m).size = f.size := by
  simp [seed, scaleWeight, scale_size, homogeneousPart, map_size]

theorem seeds_length (f : Tuple C) (offset count : Nat) :
    (f.seeds offset count).length = count := by
  simp [seeds]

theorem weightedSumFrom_size (i : Nat) (sum : Tuple C) (fs : List (Tuple C)) :
    (weightedSumFrom i sum fs).size = sum.size := by
  induction fs generalizing i sum with
  | nil => rfl
  | cons f fs ih => rw [weightedSumFrom, ih, add_size]

theorem weightedSum_size (like : Tuple C) (fs : List (Tuple C)) :
    (weightedSum like fs).size = like.size := by
  rw [weightedSum, weightedSumFrom_size, zeros_size]

end Tuple

/-- How a generator term acts on an entry. -/
inductive LieOperator
  /-- `[w, g]`, on fields. -/
  | bracket
  /-- `−Dg·w`, on functions. -/
  | negatedDerivative
deriving DecidableEq

namespace LieOperator

def apply (op : LieOperator) (w g : Tuple C) : Tuple C :=
  match op with
  | bracket => w.bracket g
  | negatedDerivative => -g.directionalDerivative w

/-- Adds `Σ_j binomial i j · op(w_j, F[i-j,m])` to an entry, `j` counted from the first of the
given generators; terms with a zero factor are left out. -/
def addTerms (op : LieOperator) (t : GradedTable (Tuple C)) (i m : Nat) :
    Nat → List (Tuple C) → Tuple C → Except Error (Tuple C)
  | _, [], entry => .ok entry
  | j, w :: ws, entry =>
    if i < j then .ok entry
    else
      match t.get (i - j) m with
      | .error e => .error e
      | .ok g =>
        if w.isZero || g.isZero then addTerms op t i m (j + 1) ws entry
        else addTerms op t i m (j + 1) ws
          (entry + (op.apply w g).scaleWeight (Weight.binomial i j))

/-- `F[i+1,m] = F[i,m+1] + Σ_{j≤i} binomial i j · op(w_j, F[i-j,m])`. -/
def recurrence (op : LieOperator) (generators : List (Tuple C)) (t : GradedTable (Tuple C))
    (i m : Nat) : Except Error (Tuple C) :=
  match t.get i (m + 1) with
  | .error e => .error e
  | .ok entry => addTerms op t i m 0 generators entry

end LieOperator

end LieNormalForm
