import LieNormalForm.Proofs.Value.Linear
import LieNormalForm.Proofs.Value.Evaluation
import LieNormalForm.Proofs.Homological.Split

/-!
# Matrices and linear tuples

Rectangular matrices correspond to the tuples of linear functions: reading the linear part off the
tuple of a matrix gives the matrix back, and a tuple is left with its part of degree one. A
composition with a linear tuple combines components by the matrix, compositions of linear tuples
are products of matrices, and the Jacobian of a linear tuple is the matrix.
-/

open MvPolynomial (coeff pderiv)

noncomputable section

namespace LieNormalForm

namespace CoeffMatrix

variable {C W : Type}

/-- As many rows, and entries in each row, as the matrix says. -/
structure Rectangular (m : CoeffMatrix C) : Prop where
  rows_length : m.rows.length = m.nrows
  row_length : ∀ row ∈ m.rows, row.length = m.ncols

instance (m : CoeffMatrix C) : Decidable m.Rectangular :=
  decidable_of_iff (m.rows.length = m.nrows ∧ ∀ row ∈ m.rows, row.length = m.ncols)
    ⟨fun h => ⟨h.1, h.2⟩, fun h => ⟨h.1, h.2⟩⟩

theorem Rectangular.ofFn (nrows ncols : ℕ) (f : ℕ → ℕ → C) : (ofFn nrows ncols f).Rectangular := by
  refine ⟨by simp [CoeffMatrix.ofFn], fun row hrow => ?_⟩
  obtain ⟨i, _, rfl⟩ := List.mem_map.1 hrow
  rw [List.length_map, List.length_range, ofFn_ncols]

theorem ofFn_congr {nrows ncols : ℕ} {f g : ℕ → ℕ → C}
    (h : ∀ i < nrows, ∀ j < ncols, f i j = g i j) :
    CoeffMatrix.ofFn nrows ncols f = CoeffMatrix.ofFn nrows ncols g :=
  congrArg (CoeffMatrix.mk nrows ncols) <| List.map_congr_left fun i hi =>
    List.map_congr_left fun j hj => h i (List.mem_range.1 hi) j (List.mem_range.1 hj)

variable [Coefficient C W]

/-- A rectangular matrix is made of its entries. -/
theorem Rectangular.eq_ofFn {m : CoeffMatrix C} (h : m.Rectangular) :
    m = CoeffMatrix.ofFn m.nrows m.ncols m.entry := by
  refine congrArg (CoeffMatrix.mk m.nrows m.ncols) ?_
  refine List.ext_getElem (by simp [h.rows_length]) fun i hi _ => ?_
  have hrow := h.row_length _ (List.getElem_mem hi)
  refine List.ext_getElem (by simp [hrow]) fun j hj _ => ?_
  simp [entry, hi, hj]

end CoeffMatrix

variable {C W : Type} [Weight W] [ExactField C W]

namespace CoeffMatrix

theorem mul_entry_eq_sum (M N : CoeffMatrix C) {i j : ℕ} (hi : i < M.nrows) (hj : j < N.ncols) :
    (M.mul N).entry i j = ∑ k ∈ Finset.range M.ncols, M.entry i k * N.entry k j := by
  rw [mul_entry M N hi hj, Coefficient.sum_eq]
  rfl

/-- A product combines first by its second factor, then by its first one. -/
theorem combine_mul {M N : CoeffMatrix C} (hfit : M.ncols = N.nrows) (f : Sequence C) :
    (M.mul N).combine f = M.combine (N.combine f) := by
  funext i
  by_cases hi : i < M.nrows
  · have hproduct : ∀ j ∈ Finset.range N.ncols, (M.mul N).entry i j • f j =
        ∑ k ∈ Finset.range M.ncols, M.entry i k • N.entry k j • f j := by
      intro j hj
      rw [mul_entry_eq_sum M N hi (Finset.mem_range.1 hj), Finset.sum_smul]
      exact Finset.sum_congr rfl fun k _ => mul_smul _ _ _
    have hinner : ∀ k ∈ Finset.range M.ncols, M.entry i k • N.combine f k =
        ∑ j ∈ Finset.range N.ncols, M.entry i k • N.entry k j • f j := by
      intro k hk
      rw [combine_of_lt (hfit ▸ Finset.mem_range.1 hk), Finset.smul_sum]
    calc (M.mul N).combine f i
        = ∑ j ∈ Finset.range N.ncols, (M.mul N).entry i j • f j := combine_of_lt (m := M.mul N) hi f
      _ = ∑ j ∈ Finset.range N.ncols, ∑ k ∈ Finset.range M.ncols,
            M.entry i k • N.entry k j • f j := Finset.sum_congr rfl hproduct
      _ = ∑ k ∈ Finset.range M.ncols, M.entry i k • N.combine f k := by
        rw [Finset.sum_comm, Finset.sum_congr rfl hinner]
      _ = M.combine (N.combine f) i := (combine_of_lt hi _).symm
  · rw [combine_of_le (not_lt.1 hi), combine_of_le (m := M.mul N) (not_lt.1 hi)]

theorem combine_X_homogeneous (M : CoeffMatrix C) : M.combine MvPolynomial.X ∈ homogeneous 1 := by
  refine mem_homogeneous.2 fun i => ?_
  by_cases hi : i < M.nrows
  · rw [combine_of_lt hi]
    exact MvPolynomial.IsHomogeneous.sum _ _ _ fun j _ =>
      (MvPolynomial.homogeneousSubmodule ℕ C 1).smul_mem _ (MvPolynomial.isHomogeneous_X C j)
  · rw [combine_of_le (not_lt.1 hi)]
    exact MvPolynomial.isHomogeneous_zero ℕ C 1

theorem slope_combine_X {M : CoeffMatrix C} {i j : ℕ} (hi : i < M.nrows) (hj : j < M.ncols) :
    slope (M.combine MvPolynomial.X) i j = M.entry i j := by
  rw [slope, coeff_combine _ hi, Finset.sum_eq_single_of_mem j (Finset.mem_range.2 hj)]
  · rw [MvPolynomial.coeff_X, if_pos rfl, mul_one]
  · intro k _ hkj
    rw [MvPolynomial.coeff_X, if_neg, mul_zero]
    exact fun h => hkj (Finsupp.single_left_injective one_ne_zero h)

end CoeffMatrix

/-- The part of degree one consists of the slopes. -/
theorem part_one_eq_sum {f : Sequence C} {i n : ℕ} (hslope : ∀ j, n ≤ j → slope f i j = 0) :
    part 1 f i = ∑ j ∈ Finset.range n, slope f i j • MvPolynomial.X j := by
  have hcoeff : ∀ (s : ℕ →₀ ℕ) (j : ℕ), coeff s (slope f i j • MvPolynomial.X j) =
      if Finsupp.single j 1 = s then slope f i j else 0 := by
    intro s j
    rw [MvPolynomial.coeff_smul, MvPolynomial.coeff_X, smul_eq_mul, mul_ite, mul_one, mul_zero]
  ext s
  rw [part_apply, MvPolynomial.coeff_homogeneousComponent, MvPolynomial.coeff_sum]
  simp only [hcoeff]
  split
  · rename_i hdegree
    obtain ⟨k, rfl⟩ := exists_eq_single hdegree
    simp only [(Finsupp.single_left_injective one_ne_zero).eq_iff, Finset.sum_ite_eq',
      Finset.mem_range]
    split
    · rfl
    · rename_i hk
      exact hslope k (not_lt.1 hk)
  · rename_i hdegree
    refine (Finset.sum_eq_zero fun j _ => if_neg ?_).symm
    rintro rfl
    exact hdegree (by simp)

namespace Tuple

open CoeffMatrix

variable {M N : CoeffMatrix C} {F : Tuple C} {len n : ℕ}

theorem linearPart_linear (hM : M.Rectangular) : (linear M).linearPart = M := by
  have hentry : ∀ i < M.nrows, ∀ j < M.ncols, (linear M).linearPart.entry i j = M.entry i j := by
    intro i hi j hj
    rw [linearPart_entry (Shaped.linear M) hi hj, value_linear, slope_combine_X hi hj]
  have hshape : (linear M).linearPart.Rectangular := .ofFn _ _ _
  calc (linear M).linearPart
      = .ofFn M.nrows M.ncols (linear M).linearPart.entry := by
        conv_lhs => rw [hshape.eq_ofFn, linearPart_nrows, linearPart_ncols, linear_size,
          linear_nvars]
    _ = .ofFn M.nrows M.ncols M.entry := ofFn_congr hentry
    _ = M := hM.eq_ofFn.symm

theorem linear_linearPart (hF : F.Shaped len n) : linear F.linearPart = F.homogeneousPart 1 := by
  have hshape : (linear F.linearPart).Shaped len n := by
    have h := Shaped.linear F.linearPart
    rwa [linearPart_nrows, linearPart_ncols, hF.size_eq, hF.nvars_eq] at h
  refine eq_of_values hshape (hF.homogeneousPart 1) fun i hi => ?_
  have hrow : i < F.linearPart.nrows := by rwa [linearPart_nrows, hF.size_eq]
  rw [value_homogeneousPart, part_one_eq_sum fun j hj => slope_eq_zero_of_le hF (.inr hj),
    value_linear, combine_of_lt hrow, linearPart_ncols, hF.nvars_eq]
  exact Finset.sum_congr rfl fun j hj => by
    rw [linearPart_entry hF hi (Finset.mem_range.1 hj)]

theorem linear_substitute (hF : F.Shaped M.ncols n) (hne : M.ncols ≠ 0) :
    (linear M).substitute F = .ok (F.applyMatrix M) := by
  obtain ⟨g, hok, hg, hvalue⟩ :=
    substituteWithin_value (Shaped.linear M) hF (fun h => absurd h hne) none
  have hsame : g = F.applyMatrix M := by
    refine value_injective hg (hF.applyMatrix M) (funext fun i => ?_)
    rw [hvalue, value_applyMatrix hF.size_eq, value_linear, aeval_combine_X]
    rfl
  rw [substitute, hok, hsame]

theorem applyMatrix_linear (hfit : M.ncols = N.nrows) :
    (linear N).applyMatrix M = linear (M.mul N) := by
  refine value_injective ((Shaped.linear N).applyMatrix M) (Shaped.linear (M.mul N)) ?_
  rw [value_applyMatrix ((linear_size N).trans hfit.symm), value_linear, value_linear,
    combine_mul hfit]

theorem derivative_linearRow {i j : ℕ} (hi : i < M.nrows) (hj : j < M.ncols) :
    (linearRow M.ncols (M.entry i)).derivative j = Poly.constant M.ncols (M.entry i j) := by
  refine Poly.value_injective ((linearRow_canonical _ _).derivative j) (.constant _ _) ?_
  have hrow : (linearRow M.ncols (M.entry i)).value = M.combine MvPolynomial.X i := by
    rw [value_linearRow, combine_of_lt hi]
  rw [Poly.value_derivative, hrow, pderiv_linear (combine_X_homogeneous M), slope_combine_X hi hj,
    Poly.value_constant]

theorem jacobian_linear (hM : M.Rectangular) : Jacobian.ofTuple (linear M) =
    ⟨M.ncols, M.rows.map fun row => row.map (Poly.constant M.ncols)⟩ := by
  have hrows := congrArg CoeffMatrix.rows hM.eq_ofFn
  rw [CoeffMatrix.ofFn] at hrows
  refine congrArg (Jacobian.mk M.ncols) ?_
  rw [hrows, linear]
  simp only [List.map_map]
  refine List.map_congr_left fun i hi => ?_
  refine (List.map_congr_left fun j hj => ?_).trans (List.map_map ..).symm
  exact derivative_linearRow (List.mem_range.1 hi) (List.mem_range.1 hj)

end Tuple

end LieNormalForm

end
