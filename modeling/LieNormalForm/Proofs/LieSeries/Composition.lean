import LieNormalForm.Proofs.LieSeries.Fields

/-!
# Composition with the flow

On single functions the operators of a generator are derivations. So the transport along their
flow respects products, and it takes a composition to the function itself as soon as it takes
the inner functions to the variables.
-/

noncomputable section

open Finset MvPolynomial LieNormalForm.LieSeries

namespace LieNormalForm

variable {C W : Type} [Weight W] [ExactField C W]

/-- The series of homogeneous parts of a function. -/
def series : MvPolynomial ℕ C →ₗ[C] ℕ → MvPolynomial ℕ C :=
  LinearMap.pi fun d => homogeneousComponent d

theorem series_apply (a : MvPolynomial ℕ C) (d : ℕ) : series a d = homogeneousComponent d a := rfl

theorem series_mul (a b : MvPolynomial ℕ C) :
    series (a * b) = convolve (LinearMap.mul C (MvPolynomial ℕ C)) (series a) (series b) :=
  funext fun i => homogeneousComponent_mul a b i

/-- The operators of a generator on single functions. -/
def derivations (u : Sequence C) (j : ℕ) : Module.End C (MvPolynomial ℕ C) :=
  -(along (part (j + 2) u)).toLinearMap

theorem derivations_apply (u : Sequence C) (j : ℕ) (a : MvPolynomial ℕ C) :
    derivations u j a = -along (part (j + 2) u) a := rfl

theorem derivations_mul (u : Sequence C) (j : ℕ) (a b : MvPolynomial ℕ C) :
    derivations u j (a * b) = derivations u j a * b + a * derivations u j b := by
  rw [derivations_apply, derivations_apply, derivations_apply, Derivation.leibniz, smul_eq_mul,
    smul_eq_mul]
  ring

/-- Inner functions for the first `n` variables; the other variables stand for themselves. -/
def padded (n : ℕ) (v : Sequence C) : Sequence C := fun k => if k < n then v k else X k

theorem padded_of_lt {n k : ℕ} (h : k < n) (v : Sequence C) : padded n v k = v k := if_pos h

theorem padded_of_le {n k : ℕ} (h : n ≤ k) (v : Sequence C) : padded n v k = X k :=
  if_neg (by omega)

theorem aeval_padded {n : ℕ} {p : MvPolynomial ℕ C} (h : ∀ k ∈ p.vars, k < n) (v : Sequence C) :
    aeval (padded n v) p = aeval v p :=
  eval₂Hom_congr' rfl (fun k hk _ => padded_of_lt (h k hk) v) rfl

variable [CharZero C]

theorem transport_negatedDerivative_apply (u f : Sequence C) (i k : ℕ) :
    transport (LieOperator.negatedDerivative.family u) (parts 0 f) i k =
      transport (derivations u) (series (f k)) i := by
  have hmember : ∀ j g, (LinearMap.proj k : Sequence C →ₗ[C] MvPolynomial ℕ C)
      (LieOperator.negatedDerivative.family u j g) =
        derivations u j ((LinearMap.proj k : Sequence C →ₗ[C] MvPolynomial ℕ C) g) :=
    fun _ _ => rfl
  exact transport_map hmember (parts 0 f) i

theorem transport_series_mul (u : Sequence C) (a b : MvPolynomial ℕ C) (i : ℕ) :
    transport (derivations u) (series (a * b)) i =
      convolve (LinearMap.mul C (MvPolynomial ℕ C)) (transport (derivations u) (series a))
        (transport (derivations u) (series b)) i := by
  rw [series_mul]
  exact transport_convolve (fun j a b => derivations_mul u j a b) _ _ i

theorem transport_series_C (u : Sequence C) (c : C) (i : ℕ) :
    transport (derivations u) (series (MvPolynomial.C c)) i = series (MvPolynomial.C c) i := by
  refine transport_of_map_eq_zero (fun j d => ?_) i
  rw [series_apply, homogeneousComponent_of_mem (isHomogeneous_C ℕ c), derivations_apply]
  split
  · rw [derivation_C, neg_zero]
  · rw [map_zero, neg_zero]

theorem transport_series_X {u : Sequence C} {k : ℕ} (h : u k = 0) (i : ℕ) :
    transport (derivations u) (series (X k)) i = series (X k) i := by
  refine transport_of_map_eq_zero (fun j d => ?_) i
  rw [series_apply, homogeneousComponent_of_mem (isHomogeneous_X C k), derivations_apply]
  split
  · rw [along_X, part_apply, h, map_zero, neg_zero]
  · rw [map_zero, neg_zero]

/-- If the inner functions are carried to the variables up to an order, every composition with
them is carried to the outer function. -/
theorem transport_series_aeval {u v : Sequence C} {order : ℕ}
    (h : ∀ k, ∀ i ≤ order, transport (derivations u) (series (v k)) i = series (X k) i)
    (p : MvPolynomial ℕ C) :
    ∀ i ≤ order, transport (derivations u) (series (aeval v p)) i = series p i := by
  induction p using MvPolynomial.induction_on with
  | C c =>
    intro i _
    rw [aeval_C, algebraMap_eq, transport_series_C]
  | add p q hp hq =>
    intro i hi
    rw [map_add, map_add, map_add, map_add, Pi.add_apply, Pi.add_apply, hp i hi, hq i hi]
  | mul_X p k hp =>
    intro i hi
    rw [map_mul, aeval_X, transport_series_mul, series_mul]
    exact convolve_congr (fun a ha => hp a (by omega)) fun b hb => h k b (by omega)

/-- If the inner functions are what the variables are carried to up to an order, every
composition with them is what the outer function is carried to. -/
theorem series_aeval_eq_transport {u v : Sequence C} {order : ℕ}
    (h : ∀ k, ∀ i ≤ order, series (v k) i = transport (derivations u) (series (X k)) i)
    (p : MvPolynomial ℕ C) :
    ∀ i ≤ order, series (aeval v p) i = transport (derivations u) (series p) i := by
  induction p using MvPolynomial.induction_on with
  | C c =>
    intro i _
    rw [aeval_C, algebraMap_eq, transport_series_C]
  | add p q hp hq =>
    intro i hi
    simp only [map_add, Pi.add_apply, hp i hi, hq i hi]
  | mul_X p k hp =>
    intro i hi
    rw [map_mul, aeval_X, transport_series_mul, series_mul]
    exact convolve_congr (fun a ha => hp a (by omega)) fun b hb => h k b (by omega)

/-- The flow of a field carries a sequence to another one, up to an order. -/
def Carries (u : Sequence C) (order : ℕ) (φ f : Sequence C) : Prop :=
  ∀ i ≤ order, transport (LieOperator.negatedDerivative.family u) (parts 0 φ) i = part i f

section Identity

variable {n order : ℕ} {u v : Sequence C} (hu : ∀ k, n ≤ k → u k = 0)
include hu

/-- A map that is carried to the identity carries compositions with it to the outer function. -/
theorem Carries.aeval (h : Carries u order v (Tuple.identity n : Tuple C).value)
    {p : MvPolynomial ℕ C} (hp : ∀ k ∈ p.vars, k < n) :
    ∀ i ≤ order, transport (derivations u) (series (MvPolynomial.aeval v p)) i = series p i := by
  rw [← aeval_padded hp]
  apply transport_series_aeval
  intro k i hi
  rcases Nat.lt_or_ge k n with hk | hk
  · rw [padded_of_lt hk, ← transport_negatedDerivative_apply, h i hi, part_apply,
      Tuple.value_identity hk, series_apply]
  · rw [padded_of_le hk, transport_series_X (hu k hk)]

/-- A map that the identity is carried to takes outer functions to what they are carried to. -/
theorem series_aeval_of_carried
    (h : ∀ i ≤ order, part i v = transport (LieOperator.negatedDerivative.family u)
      (parts 0 (Tuple.identity n : Tuple C).value) i)
    {p : MvPolynomial ℕ C} (hp : ∀ k ∈ p.vars, k < n) :
    ∀ i ≤ order, series (MvPolynomial.aeval v p) i = transport (derivations u) (series p) i := by
  rw [← aeval_padded hp]
  apply series_aeval_eq_transport
  intro k i hi
  rcases Nat.lt_or_ge k n with hk | hk
  · rw [padded_of_lt hk, series_apply, ← part_apply, h i hi, transport_negatedDerivative_apply,
      Tuple.value_identity hk]
  · rw [padded_of_le hk, transport_series_X (hu k hk)]

end Identity

/-- A derivative along a field is carried to the derivative along the field that the bracket
carries it to. -/
theorem Carries.derive {u x y φ f : Sequence C} {order : ℕ} (hx : part 0 x = 0)
    (hy : ∀ i ≤ order, part i y = transport (LieOperator.bracket.family u) (parts 0 x) i)
    (h : Carries u order φ f) :
    Carries u order (LieNormalForm.derive x φ) (LieNormalForm.derive y f) := by
  intro i hi
  have hconstant : part 0 y = 0 := by
    rw [hy 0 (Nat.zero_le order), transport_zero]
    exact hx
  have hparts : parts 0 (LieNormalForm.derive x φ) =
      convolve LieNormalForm.derive (parts 1 x) (parts 0 φ) := funext fun d => part_derive hx φ d
  rw [hparts, transport_convolve (negatedDerivative_family_derive u), part_derive hconstant,
    convolve, convolve]
  refine sum_congr rfl fun p hp => ?_
  have hsum := HasAntidiagonal.mem_antidiagonal.1 hp
  rw [h p.2 (by omega)]
  by_cases hzero : p.2 = 0
  · -- the derivative of a constant, along whatever field
    have hnone : ∀ w : Sequence C, LieNormalForm.derive w (part 0 f) = 0 := fun w =>
      funext fun k => along_of_isHomogeneous_zero w (mem_homogeneous.1 (part_mem 0 f) k)
    rw [hzero, hnone]
    exact (hnone _).symm
  · have hshift : transport (LieOperator.bracket.family u) (parts 0 x) (p.1 + 1) =
        transport (LieOperator.bracket.family u) (parts 1 x) p.1 := transport_succ _ hx p.1
    rw [← hshift, ← hy _ (by omega)]
    rfl

end LieNormalForm

end
