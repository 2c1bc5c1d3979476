import LieNormalForm.Proofs.Action
import LieNormalForm.Proofs.Exponential.Series

/-!
# The exponential as a sum that is truncated once

The loop of the exponential truncates every term, and without constant terms also the iterated
derivatives themselves. It computes the sum of the first terms of the series, with nothing dropped
before the end. A time can be moved into the field, since a derivative along a multiple of the field
is the same multiple of the derivative.
-/

noncomputable section

open Finset MvPolynomial LieNormalForm.LieSeries

namespace LieNormalForm

variable {C W : Type} [Weight W] [ExactField C W]

namespace Tuple

/-- The iterated derivative `L^k(id)` with `L g = Dg·field`, with all its terms. -/
def iteratedDerivative (field : Tuple C) : ℕ → Tuple C
  | 0 => identity field.size
  | k + 1 => (field.iteratedDerivative k).directionalDerivative field

/-- The sum `Σ_{k ≤ order} t^k/k!·L^k(id)`, with all its terms. -/
def exponentialSum (field : Tuple C) (t : C) (order : ℕ) : Tuple C :=
  (zeros field.size field.nvars).sumOnto ((List.range (order + 1)).map fun k =>
    (field.iteratedDerivative k).scale (t ^ k / k.factorial))

section Sum

variable {n order : ℕ} {X : Tuple C} (hX : X.Shaped n n)
include hX

theorem Shaped.iteratedDerivative (k : ℕ) : (X.iteratedDerivative k).Shaped n n := by
  induction k with
  | zero =>
    rw [Tuple.iteratedDerivative, hX.size_eq]
    exact .identity n
  | succ k ih => exact ih.directionalDerivative hX

theorem value_iteratedDerivative (k : ℕ) {j : ℕ} (hj : j < n) :
    (X.iteratedDerivative k).value j = ((along X.value).toLinearMap ^ k) (MvPolynomial.X j) := by
  induction k with
  | zero => rw [iteratedDerivative, hX.size_eq, value_identity hj, pow_zero, Module.End.one_apply]
  | succ k ih =>
    rw [iteratedDerivative, value_directionalDerivative (hX.iteratedDerivative k) hX, derive_apply,
      ih, pow_succ', Module.End.mul_apply]
    rfl

variable [CharZero C]

theorem exponentialSum_value (t : C) (order : ℕ) :
    (X.exponentialSum t order).Shaped n n ∧ ∀ j < n, (X.exponentialSum t order).value j =
      exponentialAlong (t • X.value) order (MvPolynomial.X j) := by
  have hterms : ∀ g ∈ (List.range (order + 1)).map fun k =>
      (X.iteratedDerivative k).scale (t ^ k / k.factorial), g.Shaped n n := by
    intro g hg
    obtain ⟨k, -, rfl⟩ := List.mem_map.1 hg
    exact (hX.iteratedDerivative k).scale _
  have hzeros : (zeros X.size X.nvars : Tuple C).Shaped n n := by
    rw [hX.size_eq, hX.nvars_eq]
    exact .zeros n n
  obtain ⟨hshape, hvalue⟩ := sumOnto_value hzeros hterms
  refine ⟨hshape, fun j hj => ?_⟩
  have hsum : (X.exponentialSum t order).value =
      ∑ k ∈ range (order + 1), (t ^ k / k.factorial) • (X.iteratedDerivative k).value := by
    rw [exponentialSum, hvalue, value_zeros, zero_add, List.map_map]
    simp only [Function.comp_def, value_scale]
    rfl
  rw [hsum, Finset.sum_apply, exponentialAlong_apply]
  refine sum_congr rfl fun k _ => ?_
  rw [Pi.smul_apply, value_iteratedDerivative hX k hj, flow_along_smul]

/-- Whether the loop drops terms on the way, if it may, or not: it computes the truncated sum. -/
theorem flowSeries_sum_eq_truncate {dropsTerms : Bool}
    (hdrops : dropsTerms = true → (X.homogeneousPart 0).isZero = true) (t : C) (order : ℕ) :
    (flowSeries X t order dropsTerms order).sum = (X.exponentialSum t order).truncate order := by
  have hreaches := flowSeries_reaches hX (fun h => part_zero_eq_zero hX (hdrops h)) t order order
  obtain ⟨hshape, hvalue⟩ := exponentialSum_value hX t order
  apply eq_of_values hreaches.sum_shaped (hshape.truncate order)
  intro j hj
  rw [hreaches.sum j hj, value_truncate_apply, hvalue j hj]

theorem exponentialSum_scale (t : C) (order : ℕ) :
    (X.scale t).exponentialSum 1 order = X.exponentialSum t order := by
  obtain ⟨hscaled, hscaledValue⟩ := exponentialSum_value (hX.scale t) 1 order
  obtain ⟨hshape, hvalue⟩ := exponentialSum_value hX t order
  apply eq_of_values hscaled hshape
  intro j hj
  rw [hscaledValue j hj, hvalue j hj, value_scale, one_smul]

end Sum

variable [CharZero C] {X : Tuple C} {vars : Variables} {order : ℕ}

theorem exponential_ok (hX : X.Shaped vars.size vars.size) (horder : 1 ≤ order) (t : C) :
    X.exponential vars t order = .ok ((X.exponentialSum t order).truncate order) := by
  have hcheck : X.checkField vars .exponentialField = .ok () := by
    simp [checkField, checkFunctions, hX.size_eq, hX.nvars_eq]
  have horder : order ≠ 0 := by omega
  simp only [exponential, hcheck, if_neg horder, flowSeries_sum_eq_truncate hX id]

section Plane

/-- The field `(1 + xy², 2x − y²)`. -/
def planeDrift : Tuple ℚ :=
  ⟨2, [⟨2, [([0, 0], 1), ([1, 2], 1)]⟩, ⟨2, [([0, 2], -1), ([1, 0], 2)]⟩]⟩

/-- The field `(xy², 2x − y²)`. -/
def planeRest : Tuple ℚ := ⟨2, [⟨2, [([1, 2], 1)]⟩, ⟨2, [([0, 2], -1), ([1, 0], 2)]⟩]⟩

/-- With a constant term dropping terms changes the sum: the second derivative of `x` has the term
`y²`, which comes from the term `xy²` of the first. -/
example : (flowSeries planeDrift 1 2 true 2).sum ≠ (flowSeries planeDrift 1 2 false 2).sum := by
  decide +kernel

end Plane

end Tuple

end LieNormalForm

end
