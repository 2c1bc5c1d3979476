import LieNormalForm.Proofs.Complex
import LieNormalForm.Proofs.FixedPoint
import LieNormalForm.Proofs.NormalForm

/-!
# Normal forms commute with a diagonal linear part

The bracket with a diagonal linear field multiplies every term by its divisor. The semisimple
normal form under the exact test has no terms but those whose divisor is zero, so its bracket with
the linear part vanishes.
-/

noncomputable section

open MvPolynomial

namespace LieNormalForm

variable {C R : Type} [RealNumber R] [ExactField C R]

namespace Diagonal

variable {A Y : Sequence C} {n k : ℕ}

/-- The terms of a diagonal linear field have no gap. -/
theorem gap_of_coeff_ne_zero (h : Diagonal A) {s : ℕ →₀ ℕ} (hs : coeff s (A k) ≠ 0) :
    gap A k s = 0 := by
  obtain ⟨j, rfl⟩ := exists_eq_single_of_coeff_ne_zero h.linear hs
  have hjk : j = k := by
    by_contra hne
    exact hs (h.off k j hne)
  rw [hjk, gap, rate, Finsupp.sum_single_index (by rw [Nat.cast_zero, zero_mul]), Nat.cast_one,
    one_mul, sub_self]

theorem bracket_eq_zero (hvars : ∀ k, ∀ j ∈ (A k).vars, j < n) (hY : ∀ k, n ≤ k → Y k = 0)
    (h : Diagonal A) (hgap : ∀ k s, coeff s (Y k) ≠ 0 → gap A k s = 0) :
    derive Y A - derive A Y = 0 := by
  funext k
  ext s
  rw [h.coeff_bracket hvars hY, Pi.zero_apply, coeff_zero, mul_eq_zero]
  by_cases hs : coeff s (Y k) = 0
  · exact .inr hs
  · exact .inl (hgap k s hs)

theorem bracket_single (hvars : ∀ k, ∀ j ∈ (A k).vars, j < n) (h : Diagonal A) (hk : k < n)
    (s : ℕ →₀ ℕ) (c : C) :
    derive (Pi.single k (monomial s c)) A - derive A (Pi.single k (monomial s c)) =
      gap A k s • (Pi.single k (monomial s c) : Sequence C) := by
  funext j
  ext r
  rw [h.coeff_bracket hvars fun i hi => Pi.single_eq_of_ne (by omega) _, Pi.smul_apply, coeff_smul,
    smul_eq_mul]
  by_cases hterm : j = k ∧ s = r
  · obtain ⟨rfl, rfl⟩ := hterm
    rfl
  · have hzero : coeff r ((Pi.single k (monomial s c) : Sequence C) j) = 0 := by
      by_cases hj : j = k
      · rw [hj, Pi.single_eq_same, coeff_monomial, if_neg fun hs => hterm ⟨hj, hs⟩]
      · rw [Pi.single_eq_of_ne hj, coeff_zero]
    rw [hzero, mul_zero, mul_zero]

end Diagonal

namespace Tuple

variable {n : ℕ} {A Y : Tuple C}

theorem eigenvalue_eq (hA : A.Shaped n n) {k : ℕ} {target : C}
    (h : A.diagonalEigenvalues[k]? = some target) : k < n ∧ target = slope A.value k k := by
  have hk : k < n := by
    rw [← hA.diagonalEigenvalues_length]
    exact (List.getElem?_eq_some_iff.1 h).1
  rw [diagonalEigenvalues_eq hA, List.getElem?_map, List.getElem?_range hk, Option.map_some] at h
  exact ⟨hk, (Option.some.inj h).symm⟩

/-- The bracket with a diagonal linear field multiplies a term by its divisor. -/
theorem bracket_single (hA : A.Shaped n n) (hdiagonal : Diagonal A.value) {k : ℕ} {target : C}
    (htarget : A.diagonalEigenvalues[k]? = some target) {m : Monomial} (hm : m.length = n) (c : C) :
    A.bracket (single n k (.ofTerm m c)) =
      (single n k (.ofTerm m c)).scale (divisor m A.diagonalEigenvalues target) := by
  obtain ⟨hk, rfl⟩ := eigenvalue_eq hA htarget
  have hterm : (single n k (.ofTerm m c)).Shaped n n := .single n k (hm ▸ .ofTerm m c)
  refine value_injective (hA.bracket hterm) (hterm.scale _) ?_
  rw [value_bracket hA hterm, value_scale, value_single hk, Poly.value_ofTerm, divisor_eq_gap hA hm]
  exact hdiagonal.bracket_single (fun j i => lt_of_mem_vars_value hA) hk _ c

theorem bracket_eq_zeros (hA : A.Shaped n n) (hdiagonal : Diagonal A.value) (hY : Y.Shaped n n)
    (hgap : Y.Supported fun k m => gap A.value k m.exponents = 0) : A.bracket Y = zeros n n := by
  refine value_injective (hA.bracket hY) (.zeros n n) ?_
  rw [value_bracket hA hY, value_zeros]
  refine hdiagonal.bracket_eq_zero (fun k j => lt_of_mem_vars_value hA)
    (fun k hk => value_of_size_le (by rwa [hY.size_eq])) fun k s hs => ?_
  rw [value_eq] at hs
  obtain ⟨t, ht, rfl⟩ := Poly.exists_mem_of_coeff_ne_zero hs
  exact hgap k t ht

/-- What the exact test accepts has no gap. -/
theorem gap_of_accepts (hA : A.Shaped n n) {k : ℕ} {m : Monomial} (hm : m.length = n)
    (h : Accepts A.diagonalEigenvalues Coefficient.isZero k m) :
    gap A.value k m.exponents = 0 := by
  obtain ⟨target, htarget, hzero⟩ := h
  obtain ⟨-, rfl⟩ := eigenvalue_eq hA htarget
  rw [← divisor_eq_gap hA hm]
  exact (ExactField.isZero_iff _).1 hzero

variable [Normed C R]

section Oscillator

/-- The field `(i·x + x²y + y², −i·y + x² + 2xy²)` with the resonant terms `x²y` and `xy²`. -/
def oscillatorField : Tuple GaussianRational :=
  ⟨2, [⟨2, [([0, 2], 1), ([1, 0], ⟨0, 1⟩), ([2, 1], 1)]⟩,
    ⟨2, [([0, 1], ⟨0, -1⟩), ([1, 2], ⟨2, 0⟩), ([2, 0], 1)]⟩]⟩

end Oscillator

end Tuple

end LieNormalForm

end
