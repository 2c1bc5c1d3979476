import LieNormalForm.Jacobian

/-!
# The exponential of a field

The time-`t` flow of a field as the series `Σ_k t^k/k!·L^k(id)` with `L g = Dg·field`. Without
constant terms `L` lowers no degree, and terms above the order can be dropped on the way.
-/

namespace LieNormalForm

namespace Tuple

variable {C W : Type} [Coefficient C W]

/-- `L^k(id)`, its weight `t^k/k!`, and the sum up to there. -/
structure FlowSeries (C : Type) where
  term : Tuple C
  weight : C
  sum : Tuple C

/-- The next term of the series, number `k`. -/
def FlowSeries.next (field : Tuple C) (t : C) (order : Nat) (dropsTerms : Bool) (k : Nat)
    (s : FlowSeries C) : FlowSeries C :=
  let derived := s.term.directionalDerivative field
  let term := if dropsTerms then derived.truncate order else derived
  let weight := Coefficient.divNat (s.weight * t) k
  ⟨term, weight, s.sum + (term.truncate order).scale weight⟩

/-- The series up to term `k`. -/
def flowSeries (field : Tuple C) (t : C) (order : Nat) (dropsTerms : Bool) : Nat → FlowSeries C
  | 0 => ⟨identity field.size, 1, (identity field.size).truncate order⟩
  | k + 1 => (flowSeries field t order dropsTerms k).next field t order dropsTerms (k + 1)

/-- The flow of a field after time `t`, up to the given order. -/
def exponential (field : Tuple C) (vars : Variables) (t : C) (order : Nat) :
    Except Error (Tuple C) :=
  match field.checkField vars .exponentialField with
  | .error e => .error e
  | .ok _ =>
    if order = 0 then .error (.invalidOrder order 1)
    else .ok (flowSeries field t order (field.homogeneousPart 0).isZero order).sum

theorem flowSeries_size (field : Tuple C) (t : C) (order : Nat) (dropsTerms : Bool) (k : Nat) :
    (flowSeries field t order dropsTerms k).sum.size = field.size := by
  induction k with
  | zero => simp [flowSeries, truncate, map_size, identity_size]
  | succ k ih => rw [flowSeries, FlowSeries.next, add_size, ih]

end Tuple

end LieNormalForm
