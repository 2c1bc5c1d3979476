import LieNormalForm.Proofs.Exponential.Group
import LieNormalForm.Proofs.Generator

/-!
# The generator of an exponential

For a homogeneous field the terms of the exponential series lie in degrees at equal distances.
They are the flow of one operator, which stands at the place of the degree of the field and is
taken as many times as a step of the series raises degrees. So the exponential is the forward
action of that multiple of the field on the coordinates, and the multiple is its generator.
-/

noncomputable section

open Finset LieNormalForm.LieSeries
open MvPolynomial (homogeneousComponent)

namespace LieNormalForm

variable {C W : Type} [Weight W] [ExactField C W]

theorem homogeneousComponent_cut {i d : ℕ} (h : i ≤ d) (a : MvPolynomial ℕ C) :
    homogeneousComponent i (cut (some d) a) = homogeneousComponent i a := by
  have hrest := mem_above.1 (sub_cut_mem_above d a) i (by omega)
  rw [map_sub, sub_eq_zero] at hrest
  exact hrest.symm

section Homogeneous

variable {x : Sequence C} {m : ℕ} (hx : x ∈ homogeneous (m + 2))
include hx

/-- The operators of a multiple of a homogeneous field. -/
theorem derivations_smul (t : C) : derivations ((t * ((m + 1 : ℕ) : C)) • x) =
    -Pi.single m (((m + 1 : ℕ) : C) • (along (t • x)).toLinearMap) := by
  funext j
  apply LinearMap.ext
  intro a
  rw [derivations_apply, map_smul, part_of_mem hx, Pi.neg_apply, LinearMap.neg_apply]
  by_cases hj : j = m
  · rw [if_pos (by omega), hj, Pi.single_eq_same, mul_comm, mul_smul, along_smul]
    rfl
  · rw [if_neg (by omega), Pi.single_eq_of_ne hj, smul_zero, along_zero]
    rfl

variable [CharZero C]

/-- A term of the exponential series of a homogeneous field has one degree. -/
theorem flow_isHomogeneous (k p : ℕ) :
    (flow (steady (along x).toLinearMap) p (MvPolynomial.X k)).IsHomogeneous
      (p * (m + 1) + 1) := by
  have hraise : ∀ j d, ∀ a ∈ MvPolynomial.homogeneousSubmodule ℕ C (d * (m + 1) + 1),
      steady (along x).toLinearMap j a ∈
        MvPolynomial.homogeneousSubmodule ℕ C ((d + j + 1) * (m + 1) + 1) := by
    intro j d a ha
    cases j with
    | zero =>
      have hdegree : (d + 0 + 1) * (m + 1) + 1 = d * (m + 1) + (m + 2) := by ring
      rw [hdegree]
      exact isHomogeneous_along hx ha
    | succ j => exact Submodule.zero_mem _
  have hflow := flow_mem (d := 0) hraise (x := MvPolynomial.X k) ?_ p
  · rwa [zero_add] at hflow
  · rw [zero_mul, zero_add]
    exact MvPolynomial.isHomogeneous_X C k

/-- Degree by degree, the exponential series of a homogeneous field is a flow of one operator. -/
theorem homogeneousComponent_exponentialAlong (k : ℕ) {q d : ℕ} (hq : q ≤ d) :
    homogeneousComponent (q + 1) (exponentialAlong x d (MvPolynomial.X k)) =
      flow (Pi.single m (((m + 1 : ℕ) : C) • (along x).toLinearMap)) q (MvPolynomial.X k) := by
  have hterm : ∀ p, homogeneousComponent (q + 1)
      (flow (steady (along x).toLinearMap) p (MvPolynomial.X k)) =
        if q = p * (m + 1) then flow (steady (along x).toLinearMap) p (MvPolynomial.X k) else 0 := by
    intro p
    rw [MvPolynomial.homogeneousComponent_of_mem (flow_isHomogeneous hx k p)]
    simp only [Nat.add_right_cancel_iff]
  rw [exponentialAlong_apply, map_sum, flow_single]
  simp only [hterm]
  split
  · rename_i hdvd
    obtain ⟨r, rfl⟩ := hdvd
    have hr : r ≤ (m + 1) * r := Nat.le_mul_of_pos_left r m.succ_pos
    rw [Nat.mul_div_cancel_left _ m.succ_pos, sum_eq_single r, if_pos (mul_comm _ _)]
    · intro p _ hp
      rw [if_neg]
      rw [mul_comm p]
      exact fun hsame => hp (Nat.eq_of_mul_eq_mul_left m.succ_pos hsame).symm
    · exact fun hnot => absurd (mem_range.2 (by omega)) hnot
  · rename_i hdvd
    apply sum_eq_zero
    intro p _
    rw [if_neg]
    exact fun hsame => hdvd ⟨p, hsame.trans (mul_comm _ _)⟩

theorem homogeneousComponent_zero_exponentialAlong (d k : ℕ) :
    homogeneousComponent 0 (exponentialAlong x d (MvPolynomial.X k)) = 0 := by
  rw [exponentialAlong_apply, map_sum]
  apply sum_eq_zero
  intro p _
  rw [MvPolynomial.homogeneousComponent_of_mem (flow_isHomogeneous hx k p), if_neg (by omega)]

/-- The flow of the multiple of a homogeneous field carries its exponential to the identity. -/
theorem carries_exponential {v : Sequence C} {n order : ℕ} (t : C)
    (hv : ∀ k < n, v k =
      cut (some order) (exponentialAlong (t • x) order (MvPolynomial.X k)))
    (hrest : ∀ k, n ≤ k → v k = 0) :
    Carries ((t * ((m + 1 : ℕ) : C)) • x) order v (Tuple.identity n : Tuple C).value := by
  have htx : t • x ∈ homogeneous (m + 2) := Submodule.smul_mem _ t hx
  intro i hi
  funext k
  rw [transport_negatedDerivative_apply, part_apply, derivations_smul hx]
  rcases Nat.lt_or_ge k n with hk | hk
  · rw [Tuple.value_identity hk]
    have hseries : ∀ q, q + 1 ≤ order → series (v k) (q + 1) =
        flow (Pi.single m (((m + 1 : ℕ) : C) • (along (t • x)).toLinearMap)) q
          (MvPolynomial.X k) := by
      intro q hq
      rw [series_apply, hv k hk, homogeneousComponent_cut hq,
        homogeneousComponent_exponentialAlong htx k (by omega)]
    have hconstant : series (v k) 0 = 0 := by
      rw [series_apply, hv k hk, homogeneousComponent_cut order.zero_le]
      exact homogeneousComponent_zero_exponentialAlong htx order k
    rw [MvPolynomial.homogeneousComponent_of_mem (MvPolynomial.isHomogeneous_X C k)]
    cases i with
    | zero => rw [transport_zero, hconstant, if_neg (by omega)]
    | succ i =>
      rw [transport_succ _ hconstant, transport_congr_right fun q hq => hseries q (by omega),
        transport_neg_flow (commute_single (Commute.refl _) m)]
      simp only [Nat.add_eq_right]
  · have hzero : series (v k) = 0 := by rw [hrest k hk, map_zero]
    rw [hzero, map_zero, Tuple.value_of_size_le (by rwa [Tuple.identity_size]), map_zero]
    rfl

end Homogeneous

namespace Tuple

variable {X : Tuple C} {vars : Variables} {d order : ℕ}

theorem part_scale_of_mem (hX : X.value ∈ homogeneous d) (c : C) {e : ℕ} (he : e ≠ d) :
    part e (X.scale c).value = 0 := by
  rw [value_scale, map_smul, part_of_mem hX, if_neg he, smul_zero]

theorem scale_one {len n : ℕ} (hX : X.Shaped len n) : X.scale 1 = X := by
  apply value_injective (hX.scale 1) hX
  rw [value_scale, one_smul]

theorem truncate_of_homogeneousPart {len n : ℕ} (hX : X.Shaped len n)
    (hhom : X.value ∈ homogeneous d) (hd : d ≤ order) : X.truncate order = X := by
  apply value_injective (hX.truncate order) hX
  rw [value_truncate, sum_eq_single d, part_eq_self hhom]
  · exact fun e _ he => by rw [part_of_mem hhom, if_neg he]
  · exact fun hnot => absurd (mem_range.2 (by omega)) hnot

section Carried

variable [CharZero C] {m : ℕ}

/-- The multiple of a homogeneous field carries its exponential to the coordinates. -/
theorem exponential_carries (hX : X.Shaped vars.size vars.size)
    (hhom : X.value ∈ homogeneous (m + 2)) (horder : 1 ≤ order) (t : C) :
    ∃ u, X.exponential vars t order = .ok u ∧ u.Shaped vars.size vars.size ∧
      u.truncate order = u ∧ Carries (X.scale (t * ((m + 1 : ℕ) : C))).value order u.value
        (identity vars.size : Tuple C).value := by
  obtain ⟨u, hexponential, hu, hvalue⟩ := exponential_value hX horder t
  refine ⟨u, hexponential, hu, ?_, ?_⟩
  · apply eq_of_values (hu.truncate order) hu
    intro k hk
    rw [value_truncate_apply, hvalue k hk, cut_cut]
  · rw [value_scale]
    exact carries_exponential hhom t hvalue fun k hk => hu.value_eq_zero hk

end Carried

section Generator

variable {R : Type} [RealNumber R] [ExactField C R] [Normed C R] [CharZero C]

end Generator

section Plane

/-- The field `(y³, −2x²y)`. -/
def planeCubic : Tuple ℚ := ⟨2, [⟨2, [([0, 3], 1)]⟩, ⟨2, [([2, 1], -2)]⟩]⟩

/-- The field `(x² − y², 3xy)`. -/
def planeQuadratic : Tuple ℚ := ⟨2, [⟨2, [([0, 2], -1), ([2, 0], 1)]⟩, ⟨2, [([1, 1], 3)]⟩]⟩

end Plane

end Tuple

end LieNormalForm

end
