import LieNormalForm.Proofs.LieSeries.Composition
import LieNormalForm.Proofs.LieSeries.Steady

/-!
# The exponential of a derivation

A field without constant terms lowers no degree as a derivation, and one without linear terms
raises every degree. Up to a degree the exponential series of such a derivation is therefore a
finite sum. It respects products, so it is the composition with the images of the variables, and
the exponentials of multiples of one field add up in the parameter.
-/

noncomputable section

open Finset MvPolynomial LieNormalForm.LieSeries

namespace LieNormalForm

variable {C W : Type} [Weight W] [ExactField C W]

/-- Polynomials without terms below a degree. -/
def above (e : ℕ) : Submodule C (MvPolynomial ℕ C) :=
  ⨅ d ∈ Set.Iio e, LinearMap.ker (homogeneousComponent d)

theorem mem_above {e : ℕ} {a : MvPolynomial ℕ C} :
    a ∈ above e ↔ ∀ d < e, homogeneousComponent d a = 0 := by
  simp [above]

theorem mem_above_zero (a : MvPolynomial ℕ C) : a ∈ above 0 :=
  mem_above.2 fun d hd => absurd hd d.not_lt_zero

theorem mul_mem_above {e e' : ℕ} {a b : MvPolynomial ℕ C} (ha : a ∈ above e) (hb : b ∈ above e') :
    a * b ∈ above (e + e') := by
  rw [mem_above] at ha hb ⊢
  intro d hd
  rw [homogeneousComponent_mul, convolve]
  apply sum_eq_zero
  intro q hq
  have hsum := HasAntidiagonal.mem_antidiagonal.1 hq
  by_cases hlow : q.1 < e
  · rw [ha q.1 hlow, map_zero, LinearMap.zero_apply]
  · rw [hb q.2 (by omega), map_zero]

theorem cut_eq_zero {d e : ℕ} {a : MvPolynomial ℕ C} (h : a ∈ above e) (hd : d < e) :
    cut (some d) a = 0 := by
  rw [cut_some]
  apply sum_eq_zero
  intro i hi
  rw [mem_range] at hi
  exact mem_above.1 h i (by omega)

theorem sub_cut_mem_above (d : ℕ) (a : MvPolynomial ℕ C) : a - cut (some d) a ∈ above (d + 1) := by
  rw [mem_above]
  intro i hi
  ext s
  rw [coeff_homogeneousComponent, coeff_sub, coeff_cut, coeff_zero]
  split
  · rename_i hs
    rw [if_pos (by simp [Poly.within]; omega), sub_self]
  · rfl

/-- What an operator does up to a degree that it never lowers can be seen on the polynomial cut
at the degree. -/
theorem cut_map_cut {T : Module.End C (MvPolynomial ℕ C)} {d : ℕ}
    (h : ∀ a ∈ above (d + 1), T a ∈ above (d + 1)) (a : MvPolynomial ℕ C) :
    cut (some d) (T (cut (some d) a)) = cut (some d) (T a) := by
  have hrest := cut_eq_zero (h _ (sub_cut_mem_above d a)) d.lt_succ_self
  rw [map_sub, map_sub, sub_eq_zero] at hrest
  exact hrest.symm

section Derivation

variable {x : Sequence C}

theorem along_mem_above (hx : part 0 x = 0) {e : ℕ} {a : MvPolynomial ℕ C} (ha : a ∈ above e) :
    along x a ∈ above e := by
  rw [mem_above] at ha ⊢
  intro d hd
  rw [homogeneousComponent_along hx]
  apply sum_eq_zero
  intro q hq
  have hsum := HasAntidiagonal.mem_antidiagonal.1 hq
  rw [ha q.2 (by omega), map_zero]

theorem along_mem_above_succ (hlow : ∀ d < 2, part d x = 0) {e : ℕ} {a : MvPolynomial ℕ C}
    (ha : a ∈ above e) : along x a ∈ above (e + 1) := by
  rw [mem_above] at ha ⊢
  intro d hd
  rw [homogeneousComponent_along (hlow 0 (by omega))]
  apply sum_eq_zero
  intro q hq
  have hsum := HasAntidiagonal.mem_antidiagonal.1 hq
  by_cases hq₂ : q.2 < e
  · rw [ha q.2 hq₂, map_zero]
  · rw [hlow (q.1 + 1) (by omega), along_zero, Derivation.zero_apply]

theorem part_smul_eq_zero (hlow : ∀ d < 2, part d x = 0) (c : C) :
    ∀ d < 2, part d (c • x) = 0 := by
  intro d hd
  rw [map_smul, hlow d hd, smul_zero]

end Derivation

/-- The exponential series of the derivation along a field, up to the term of number `d`. -/
def exponentialAlong (x : Sequence C) (d : ℕ) : Module.End C (MvPolynomial ℕ C) :=
  ∑ p ∈ range (d + 1), flow (steady (along x).toLinearMap) p

theorem exponentialAlong_apply (x : Sequence C) (d : ℕ) (a : MvPolynomial ℕ C) :
    exponentialAlong x d a = ∑ p ∈ range (d + 1), flow (steady (along x).toLinearMap) p a :=
  LinearMap.sum_apply _ _ _

variable [CharZero C]

theorem exponentialAlong_of_along_eq_zero {x : Sequence C} {a : MvPolynomial ℕ C}
    (h : along x a = 0) (d : ℕ) : exponentialAlong x d a = a := by
  have hzero : ∀ j, steady (along x).toLinearMap j a = 0 := by
    intro j
    cases j with
    | zero => exact h
    | succ j => rfl
  rw [exponentialAlong_apply, sum_range_succ', flow_zero_apply, sum_eq_zero, zero_add]
  exact fun p _ => flow_eq_zero hzero p.succ_ne_zero

section Raising

variable {x : Sequence C} (hlow : ∀ d < 2, part d x = 0)
include hlow

theorem flow_mem_above {e : ℕ} {a : MvPolynomial ℕ C} (ha : a ∈ above e) (p : ℕ) :
    flow (steady (along x).toLinearMap) p a ∈ above (e + p) := by
  refine flow_mem (fun j d b hb => ?_) ha p
  cases j with
  | zero => exact along_mem_above_succ hlow hb
  | succ j => exact Submodule.zero_mem _

theorem exponentialAlong_mem_above {e : ℕ} {a : MvPolynomial ℕ C} (ha : a ∈ above e) (d : ℕ) :
    exponentialAlong x d a ∈ above e := by
  rw [exponentialAlong_apply]
  refine Submodule.sum_mem _ fun p _ => mem_above.2 fun i hi => ?_
  exact mem_above.1 (flow_mem_above hlow ha p) i (by omega)

theorem cut_exponentialAlong_cut (d : ℕ) (a : MvPolynomial ℕ C) :
    cut (some d) (exponentialAlong x d (cut (some d) a)) =
      cut (some d) (exponentialAlong x d a) :=
  cut_map_cut (fun _ hb => exponentialAlong_mem_above hlow hb d) a

theorem cut_exponentialAlong_mul (d : ℕ) (a b : MvPolynomial ℕ C) :
    cut (some d) (exponentialAlong x d a * exponentialAlong x d b) =
      cut (some d) (exponentialAlong x d (a * b)) := by
  have hproduct : ∀ r, flow (steady (along x).toLinearMap) r (a * b) =
      ∑ q ∈ antidiagonal r, flow (steady (along x).toLinearMap) q.1 a *
        flow (steady (along x).toLinearMap) q.2 b := by
    refine fun r => flow_product (B := LinearMap.mul C (MvPolynomial ℕ C)) (fun j a b => ?_) a b r
    cases j with
    | zero =>
      change along x (a * b) = along x a * b + a * along x b
      rw [Derivation.leibniz, smul_eq_mul, smul_eq_mul]
      ring
    | succ j => simp [steady]
  simp only [exponentialAlong_apply, sum_mul_sum, map_sum, hproduct]
  apply sum_range_range_eq
  intro p q hpq
  have hterms := mul_mem_above (flow_mem_above hlow (mem_above_zero a) p)
    (flow_mem_above hlow (mem_above_zero b) q)
  exact cut_eq_zero hterms (by omega)

/-- Up to the degree the exponential is the composition with what it makes of the variables. -/
theorem cut_aeval_eq_exponentialAlong {v : Sequence C} {d : ℕ}
    (h : ∀ k, cut (some d) (v k) = cut (some d) (exponentialAlong x d (X k)))
    (a : MvPolynomial ℕ C) :
    cut (some d) (aeval v a) = cut (some d) (exponentialAlong x d a) := by
  induction a using MvPolynomial.induction_on with
  | C c => rw [aeval_C, algebraMap_eq, exponentialAlong_of_along_eq_zero (derivation_C _ c)]
  | add a b ha hb => simp only [map_add, ha, hb]
  | mul_X a k ha =>
    calc cut (some d) (aeval v (a * X k))
        = cut (some d) (cut (some d) (aeval v a) * cut (some d) (v k)) := by
          rw [map_mul, aeval_X, cut_cut_mul, cut_mul_cut]
      _ = cut (some d) (exponentialAlong x d a * exponentialAlong x d (X k)) := by
          rw [ha, h, cut_cut_mul, cut_mul_cut]
      _ = cut (some d) (exponentialAlong x d (a * X k)) := cut_exponentialAlong_mul hlow d a (X k)

/-- Up to the degree the exponentials of two multiples of a field compose to that of their sum. -/
theorem cut_exponentialAlong_add (s t : C) (d : ℕ) (a : MvPolynomial ℕ C) :
    cut (some d) (exponentialAlong (s • x) d (exponentialAlong (t • x) d a)) =
      cut (some d) (exponentialAlong ((s + t) • x) d a) := by
  have hcommute : Commute (along (s • x)).toLinearMap (along (t • x)).toLinearMap := by
    rw [along_smul, along_smul]
    exact ((Commute.refl (along x).toLinearMap).smul_left s).smul_right t
  have hsum : ∀ r, flow (steady (along ((s + t) • x)).toLinearMap) r a =
      ∑ q ∈ antidiagonal r, flow (steady (along (s • x)).toLinearMap) q.1
        (flow (steady (along (t • x)).toLinearMap) q.2 a) := by
    intro r
    rw [add_smul, along_add]
    exact flow_steady_add hcommute a r
  simp only [exponentialAlong_apply, map_sum, hsum]
  rw [sum_comm]
  apply sum_range_range_eq
  intro p q hpq
  have hterm := flow_mem_above (part_smul_eq_zero hlow s)
    (flow_mem_above (part_smul_eq_zero hlow t) (mem_above_zero a) q) p
  exact cut_eq_zero hterm (by omega)

end Raising

end LieNormalForm

end
