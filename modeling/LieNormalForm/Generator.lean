import LieNormalForm.Graded.Series
import LieNormalForm.Tuple.Linear
import LieNormalForm.Tuple.Text

/-!
# The generator of a map

A map whose linear part is the identity and which has no constant term is the time-one map of
a generator. The table `Y[i,k]` starts from `(k+1)!` times the part of degree `k + 2`, its first
column holds the terms of the generator.
-/

namespace LieNormalForm

namespace Tuple

variable {C R : Type} [RealNumber R] [Coefficient C R] [Normed C R]

/-- How far a linear part may be from the identity, and a constant term from zero. -/
def identityTolerance : R := RealNumber.decimal 1 9

/-- The map is the identity up to terms of degree two. -/
def checkNearIdentity (map : Tuple C) : Except Error Unit :=
  if map.linearPart.isNearIdentity identityTolerance then
    if (map.homogeneousPart 0).approxEq (zeros map.size map.nvars) identityTolerance then .ok ()
    else .error (.notNearIdentity .constantTerm)
  else .error (.notNearIdentity .linearPart)

end Tuple

namespace NearIdentity

variable {C W : Type} [Weight W] [Coefficient C W]

/-- `(k+1)!` times the part of degree `k + 2`. -/
def seed (map : Tuple C) (k : Nat) : Tuple C :=
  (map.seed 2 k).scaleWeight (Weight.ofNat (k + 1))

/-- Subtracts `binomial i j · DY[j,k]·Y[i-j,0]` for the first `count` values of `j` from an entry;
terms with a zero factor are left out. -/
def subtractTerms (t : GradedTable (Tuple C)) (i k : Nat) : Nat → Tuple C → Except Error (Tuple C)
  | 0, entry => .ok entry
  | j + 1, entry =>
    match subtractTerms t i k j entry with
    | .error e => .error e
    | .ok entry' =>
      match t.get (i - j) 0 with
      | .error e => .error e
      | .ok direction =>
        match t.get j k with
        | .error e => .error e
        | .ok term =>
          if direction.isZero || term.isZero then .ok entry'
          else .ok (entry'
            - (term.directionalDerivative direction).scaleWeight (Weight.binomial i j))

/-- `Y[i+1,k] = Y[i,k+1] − Σ_{j≤i} binomial i j · DY[j,k]·Y[i-j,0]`. -/
def recurrence (t : GradedTable (Tuple C)) (i k : Nat) : Except Error (Tuple C) :=
  match t.get i (k + 1) with
  | .error e => .error e
  | .ok entry => subtractTerms t i k (i + 1) entry

/-- The table of a map, `count` anti-diagonals of it. -/
def table (map : Tuple C) : Nat → Except Error (GradedTable (Tuple C))
  | 0 => .ok .empty
  | n + 1 =>
    match table map n with
    | .error e => .error e
    | .ok t => GradedTable.fillRows recurrence n n (t.insert 0 n (seed map n))

end NearIdentity

namespace Tuple

variable {C R : Type} [RealNumber R] [Coefficient C R] [Normed C R]

/-- The generator whose forward action on the coordinates is the map, up to the given order. -/
def generatorOf (map : Tuple C) (vars : Variables) (order : Nat) : Except Error (Tuple C) :=
  match map.checkField vars .nearIdentityMap with
  | .error e => .error e
  | .ok _ =>
    match map.checkNearIdentity with
    | .error e => .error e
    | .ok _ =>
      match NearIdentity.table map (order - 1) with
      | .error e => .error e
      | .ok t =>
        match t.firstColumn (order - 1) with
        | .error e => .error e
        | .ok column => .ok (weightedSum map column)

end Tuple

end LieNormalForm
