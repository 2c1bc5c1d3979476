import LieNormalForm.Proofs.Jordan.Blocks
import LieNormalForm.Proofs.LieAlgebra
import LieNormalForm.Proofs.Homological.Split
import LieNormalForm.Proofs.Value.Derivative
import LieNormalForm.Proofs.Value.Linear
import LieNormalForm.Jordan.Reduction

/-!
# Linear changes of coordinates

With a matrix `S` and its inverse a field `X` becomes `S⁻¹·X(S·u)` in the coordinates `x = S·u`. The
chain rule makes of a derivative along a field the derivative along the changed field, so the
bracket of two changed fields is the changed bracket, and the linear part is conjugated. The inverse
change takes everything back.
-/

open MvPolynomial (aeval coeff pderiv)

noncomputable section

namespace LieNormalForm

variable {C W : Type} [Weight W] [ExactField C W]

/-- A substitution that moves no constant acts on slopes as a matrix. -/
theorem coeff_single_aeval {x : Sequence C} {n : ℕ}
    (hconstant : ∀ k, MvPolynomial.constantCoeff (x k) = 0) (hzero : ∀ k, n ≤ k → x k = 0)
    (a : MvPolynomial ℕ C) (j : ℕ) :
    coeff (Finsupp.single j 1) (aeval x a) =
      ∑ k ∈ Finset.range n, coeff (Finsupp.single k 1) a * coeff (Finsupp.single j 1) (x k) := by
  have hslope : ∀ (b : MvPolynomial ℕ C) (k : ℕ),
      coeff (Finsupp.single k 1) b = MvPolynomial.constantCoeff (pderiv k b) := by
    intro b k
    simp [MvPolynomial.constantCoeff_eq, MvPolynomial.coeff_pderiv]
  have hhom : MvPolynomial.constantCoeff.comp (aeval x).toRingHom = MvPolynomial.constantCoeff :=
    MvPolynomial.ringHom_ext (by simp) (by simp [hconstant])
  rw [hslope, derivation_aeval (pderiv j) hzero a, map_sum]
  refine Finset.sum_congr rfl fun k _ => ?_
  rw [map_mul, hslope a, hslope (x k)]
  exact congrArg (· * _) (DFunLike.congr_fun hhom (pderiv k a))

theorem aeval_congr_of_lt {A : Type} [CommRing A] [Algebra C A] {a : MvPolynomial ℕ C} {n : ℕ}
    (ha : ∀ k ∈ a.vars, k < n) {x y : ℕ → A} (h : ∀ k < n, x k = y k) : aeval x a = aeval y a :=
  MvPolynomial.eval₂Hom_congr' rfl (fun k hk _ => h k (ha k hk)) rfl

namespace CoeffMatrix

/-- Square matrices of one size whose product is the identity. -/
structure Inverse (n : ℕ) (S T : CoeffMatrix C) : Prop where
  square : S.nrows = n ∧ S.ncols = n
  square' : T.nrows = n ∧ T.ncols = n
  mul : S.toMatrix n * T.toMatrix n = 1

/-- A sequence in other coordinates, `N·f(M·u)`. -/
def conjugate (M N : CoeffMatrix C) (f : Sequence C) : Sequence C :=
  N.combine fun k => aeval (M.combine MvPolynomial.X) (f k)

section Inverse

variable {n : ℕ} {S T : CoeffMatrix C} (h : Inverse n S T)
include h

theorem Inverse.symm : Inverse n T S := ⟨h.square', h.square, mul_eq_one_comm.1 h.mul⟩

theorem Inverse.inv_eq : (S.toMatrix n)⁻¹ = T.toMatrix n := Matrix.inv_eq_right_inv h.mul

theorem Inverse.sum_entry {i k : ℕ} (hi : i < n) (hk : k < n) :
    ∑ j ∈ Finset.range n, S.entry i j * T.entry j k = if i = k then 1 else 0 := by
  have hentry := congrFun (congrFun h.mul ⟨i, hi⟩) ⟨k, hk⟩
  simp only [Matrix.mul_apply, Matrix.one_apply, Fin.mk.injEq] at hentry
  rw [Finset.sum_range]
  exact hentry

theorem Inverse.combine_apply {i : ℕ} (hi : i < n) (f : Sequence C) :
    S.combine f i = ∑ j ∈ Finset.range n, S.entry i j • f j := by
  rw [combine_of_lt (h.square.1.symm ▸ hi), h.square.2]

theorem Inverse.combine_eq_zero {i : ℕ} (hi : n ≤ i) (f : Sequence C) : S.combine f i = 0 :=
  combine_of_le (h.square.1.le.trans hi) f

theorem Inverse.combine_combine {i : ℕ} (hi : i < n) (f : Sequence C) :
    S.combine (T.combine f) i = f i := by
  have hrow : ∀ j ∈ Finset.range n, S.entry i j • T.combine f j =
      ∑ k ∈ Finset.range n, (S.entry i j * T.entry j k) • f k := by
    intro j hj
    rw [h.symm.combine_apply (Finset.mem_range.1 hj), Finset.smul_sum]
    exact Finset.sum_congr rfl fun k _ => smul_smul _ _ _
  rw [h.combine_apply hi, Finset.sum_congr rfl hrow, Finset.sum_comm,
    Finset.sum_eq_single_of_mem i (Finset.mem_range.2 hi)]
  · rw [← Finset.sum_smul, h.sum_entry hi hi, if_pos rfl, one_smul]
  · intro k hk hki
    rw [← Finset.sum_smul, h.sum_entry hi (Finset.mem_range.1 hk), if_neg hki.symm, zero_smul]

theorem Inverse.aeval_image {k : ℕ} (hk : k < n) :
    aeval (T.combine MvPolynomial.X) (S.combine MvPolynomial.X k) = MvPolynomial.X k := by
  rw [aeval_combine_X, h.combine_combine hk]

/-- One change of coordinates after the other is none. -/
theorem Inverse.aeval_aeval {a : MvPolynomial ℕ C} (ha : ∀ k ∈ a.vars, k < n) :
    aeval (T.combine MvPolynomial.X) (aeval (S.combine MvPolynomial.X) a) = a := by
  rw [MvPolynomial.comp_aeval_apply]
  conv_rhs => rw [← MvPolynomial.aeval_X_left_apply a]
  exact aeval_congr_of_lt ha fun k hk => h.aeval_image hk

theorem Inverse.conjugate_conjugate {f : Sequence C} (hf : ∀ i, ∀ k ∈ (f i).vars, k < n) {i : ℕ}
    (hi : i < n) : conjugate T S (conjugate S T f) i = f i := by
  have hinner : (fun k => aeval (T.combine MvPolynomial.X) (conjugate S T f k)) = T.combine f := by
    funext k
    simp only [conjugate, aeval_combine, h.aeval_aeval (hf _)]
  rw [conjugate, hinner, h.combine_combine hi]

/-- The chain rule: the derivative along the field in other coordinates. -/
theorem Inverse.along_conjugate (w : Sequence C) {a : MvPolynomial ℕ C}
    (ha : ∀ k ∈ a.vars, k < n) : along (conjugate S T w) (aeval (S.combine MvPolynomial.X) a) =
      aeval (S.combine MvPolynomial.X) (along w a) := by
  rw [derivation_aeval (along (conjugate S T w)) (fun k hk => h.combine_eq_zero hk _) a,
    along_eq_sum ha, map_sum]
  refine Finset.sum_congr rfl fun k hk => ?_
  rw [along_combine_X, conjugate, h.combine_combine (Finset.mem_range.1 hk), map_mul]

theorem Inverse.derive_conjugate (w : Sequence C) {f : Sequence C}
    (hf : ∀ i, ∀ k ∈ (f i).vars, k < n) :
    derive (conjugate S T w) (conjugate S T f) = conjugate S T (derive w f) := by
  funext i
  refine (along_combine (conjugate S T w) T _ i).trans ?_
  simp only [h.along_conjugate w (hf _)]
  rfl

theorem Inverse.fieldBracket_conjugate {v w : Sequence C} (hv : ∀ i, ∀ k ∈ (v i).vars, k < n)
    (hw : ∀ i, ∀ k ∈ (w i).vars, k < n) :
    fieldBracket (conjugate S T v) (conjugate S T w) = conjugate S T (fieldBracket v w) := by
  rw [fieldBracket_apply, fieldBracket_apply, h.derive_conjugate w hv, h.derive_conjugate v hw,
    conjugate, conjugate, conjugate, ← combine_sub]
  congr 1
  funext k
  exact (map_sub _ _ _).symm

theorem Inverse.coeff_image {k j : ℕ} (hk : k < n) (hj : j < n) :
    coeff (Finsupp.single j 1) (S.combine MvPolynomial.X k) = S.entry k j := by
  rw [coeff_combine _ (h.square.1.symm ▸ hk), h.square.2]
  simp [MvPolynomial.coeff_X, Finsupp.single_left_inj, hj]

theorem Inverse.slope_conjugate (f : Sequence C) {i j : ℕ} (hi : i < n) (hj : j < n) :
    slope (conjugate S T f) i j =
      ∑ k ∈ Finset.range n, T.entry i k * ∑ l ∈ Finset.range n, slope f k l * S.entry l j := by
  have hconstant : ∀ k, MvPolynomial.constantCoeff (S.combine MvPolynomial.X k) = 0 := by
    intro k
    by_cases hk : k < n
    · rw [MvPolynomial.constantCoeff_eq, coeff_combine _ (h.square.1.symm ▸ hk)]
      simp
    · rw [h.combine_eq_zero (not_lt.1 hk), map_zero]
  rw [slope, conjugate, coeff_combine _ (h.square'.1.symm ▸ hi), h.square'.2]
  refine Finset.sum_congr rfl fun k _ => ?_
  rw [coeff_single_aeval hconstant fun l hl => h.combine_eq_zero hl _]
  congr 1
  exact Finset.sum_congr rfl fun l hl => by rw [h.coeff_image (Finset.mem_range.1 hl) hj, slope]

/-- The value at a point: the matrix takes the point there, the inverse takes the value back. -/
theorem Inverse.eval_conjugate {f : Sequence C} (hf : ∀ i, ∀ k ∈ (f i).vars, k < n) {x y : ℕ → C}
    (hxy : ∀ k < n, y k = ∑ j ∈ Finset.range n, S.entry k j * x j) {i : ℕ} (hi : i < n) :
    aeval x (conjugate S T f i) = ∑ k ∈ Finset.range n, T.entry i k * aeval y (f k) := by
  have himage : ∀ k < n, aeval x (S.combine MvPolynomial.X k) = y k := by
    intro k hk
    have hmap := map_combine_of_lt (aeval (R := C) x).toLinearMap (h.square.1.symm ▸ hk)
      MvPolynomial.X
    simp only [AlgHom.toLinearMap_apply, MvPolynomial.aeval_X, h.square.2] at hmap
    rw [hmap, hxy k hk]
    rfl
  have hmap := map_combine_of_lt (aeval (R := C) x).toLinearMap (h.square'.1.symm ▸ hi)
    fun k => aeval (S.combine MvPolynomial.X) (f k)
  rw [h.square'.2] at hmap
  refine hmap.trans (Finset.sum_congr rfl fun k _ => ?_)
  rw [AlgHom.toLinearMap_apply, MvPolynomial.comp_aeval_apply]
  exact congrArg (T.entry i k * ·) (aeval_congr_of_lt (hf k) himage)

end Inverse

end CoeffMatrix

end LieNormalForm

end
