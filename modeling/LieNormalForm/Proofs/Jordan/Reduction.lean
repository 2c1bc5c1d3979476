import LieNormalForm.Proofs.Jordan.Columns
import LieNormalForm.Proofs.Jordan.Coordinates
import LieNormalForm.Proofs.Obtainable.Poly
import LieNormalForm.Proofs.Decimal
import LieNormalForm.Numeric.Inverse

/-!
# The Jordan reduction is a conjugation

A reduction writes a field in the coordinates of its basis. With exact coefficients, and if the
matrix that is taken for the inverse of the basis is its inverse, the reduced field is the field in
the new coordinates but for the parts that are set to zero; the two substitutions undo each other,
and the changes of coordinates carry brackets to brackets.
-/

noncomputable section

namespace LieNormalForm

open CoeffMatrix (Inverse combine)

variable {C R : Type} [ExactReal R] [ExactComplex C R]

namespace Poly

theorem chopCoefficient_zero (tolerance : R) : chopCoefficient tolerance (0 : C) = 0 := by
  have hpart : chopPart tolerance (0 : R) = 0 := by
    unfold chopPart
    split <;> rfl
  rw [chopCoefficient, ExactComplex.re_zero, ExactComplex.im_zero, hpart]
  exact ExactComplex.ofReal_zero

theorem coefficient_chop {n : ℕ} {p : Poly C} (hp : p.Canonical n) {m : Monomial}
    (hm : m.length = n) (tolerance : R) :
    (p.chop tolerance).coefficient m = chopCoefficient tolerance (p.coefficient m) := by
  obtain ⟨nvars, ts⟩ := p
  obtain ⟨hnvars, hterms⟩ := hp
  dsimp only at hterms
  induction ts with
  | nil => exact (chopCoefficient_zero tolerance).symm
  | cons t ts ih =>
    have htail := ih hnvars hterms.tail
    rw [coefficient_cons, chop, List.map_cons, nonzeroTerms, List.filter_cons]
    by_cases hzero : Coefficient.isZero (chopCoefficient tolerance t.2) = true
    · rw [if_neg (by simp [hzero])]
      refine htail.trans ?_
      split
      · rename_i htm
        -- the term is gone, and no other one has its monomial
        have hrest : (⟨nvars, ts⟩ : Poly C).coefficient m = 0 := by
          have hcanonical : (⟨nvars, ts⟩ : Poly C).Canonical n := ⟨hnvars, hterms.tail⟩
          rw [← coeff_value hcanonical hm]
          exact coeff_termsValue_of_above hm hterms.tail.length (htm ▸ hterms.above)
        rw [hrest, chopCoefficient_zero, (ExactField.isZero_iff _).1 hzero]
      · rfl
    · rw [if_pos (by simp [hzero]), coefficient_cons]
      split
      · rfl
      · exact htail

end Poly

theorem CoeffMatrix.mulVec_toMatrix {n : ℕ} (m : CoeffMatrix C) (u : Fin n → C) (i : Fin n) :
    (m.toMatrix n).mulVec u i = ∑ j : Fin n, m.entry i j * u j := rfl

theorem pointAt_ofFn {n : ℕ} (u : Fin n → C) (i : Fin n) : pointAt (List.ofFn u) i = u i := by
  simp [pointAt]

namespace Tuple

/-- The field `S⁻¹·X(S·u)`, known by its values at all points; its linear part is conjugated. -/
structure IsConjugate (n : ℕ) (S : Matrix (Fin n) (Fin n) C) (X Y : Tuple C) : Prop where
  shaped : Y.Shaped n n
  values : ∀ (u : Fin n → C) (i : Fin n), (Y.component i).evaluate (List.ofFn u) =
    S⁻¹.mulVec (fun k : Fin n => (X.component k).evaluate (List.ofFn (S.mulVec u))) i
  linear : Y.linearPart.toMatrix n = S⁻¹ * X.linearPart.toMatrix n * S

/-- Real and imaginary parts below the tolerance are zero, all others are as before. -/
structure IsChopped (n : ℕ) (tolerance : R) (Y F : Tuple C) : Prop where
  shaped : F.Shaped n n
  re : ∀ (k : ℕ) (m : Monomial), m.length = n →
    ComplexNumber.re ((F.component k).coefficient m) =
      let x : R := ComplexNumber.re ((Y.component k).coefficient m)
      if RealNumber.lt (RealNumber.abs x) tolerance then 0 else x
  im : ∀ (k : ℕ) (m : Monomial), m.length = n →
    ComplexNumber.im ((F.component k).coefficient m) =
      let y : R := ComplexNumber.im ((Y.component k).coefficient m)
      if RealNumber.lt (RealNumber.abs y) tolerance then 0 else y

/-- A change of coordinates takes the bracket of two fields to the bracket of the changed fields. -/
def CarriesBrackets (change : Tuple C → Except Error (Tuple C)) (vars vars' : Variables) : Prop :=
  ∀ F G : Tuple C, F.Shaped vars.size vars.size → G.Shaped vars.size vars.size →
    ∃ F' G' B B', change F = .ok F' ∧ change G = .ok G' ∧ F.lieBracket G vars = .ok B ∧
      change B = .ok B' ∧ F'.lieBracket G' vars' = .ok B'

section Change

variable {n : ℕ} {S T : CoeffMatrix C} (h : Inverse n S T) {X : Tuple C} (hX : X.Shaped n n)
include h

theorem shaped_linear : (linear S).Shaped n n := by
  have hshape := Shaped.linear S
  rwa [h.square.1, h.square.2] at hshape

theorem substitute_linear_linear : (linear S).substitute (linear T) = .ok (identity n) := by
  obtain ⟨g, hg, hshape, hvalue⟩ :=
    substituteWithin_value (shaped_linear h) (shaped_linear h.symm) (fun hn => hn) none
  refine hg.trans (congrArg Except.ok (eq_of_values hshape (.identity n) fun k hk => ?_))
  rw [hvalue, value_linear, value_linear, value_identity hk]
  exact h.aeval_image hk

include hX

theorem conjugate_eq_ok : ∃ Y, X.conjugate S T = .ok Y ∧ Y.Shaped n n ∧
    Y.value = CoeffMatrix.conjugate S T X.value := by
  obtain ⟨Y, hY, hshape, hvalue⟩ :=
    substituteWithin_value hX (shaped_linear h) (fun hn => hn) none
  have hok : X.substitute (linear S) = .ok Y := hY
  refine ⟨Y.applyMatrix T, by rw [conjugate, hok], h.square'.1 ▸ hshape.applyMatrix T, ?_⟩
  rw [value_applyMatrix (hshape.size_eq.trans h.square'.2.symm), CoeffMatrix.conjugate]
  congr 1
  funext k
  rw [hvalue, value_linear]
  rfl

theorem isConjugate_of_conjugate {Y : Tuple C} (hY : X.conjugate S T = .ok Y) :
    IsConjugate n (S.toMatrix n) X Y := by
  obtain ⟨Y', hY', hshape, hvalue⟩ := conjugate_eq_ok h hX
  obtain rfl : Y' = Y := Except.ok.inj (hY'.symm.trans hY)
  have hvars : ∀ i, ∀ k ∈ (X.value i).vars, k < n := fun i k hk => lt_of_mem_vars_value hX hk
  refine ⟨hshape, fun u i => ?_, ?_⟩
  · have hxy : ∀ k < n, pointAt (List.ofFn ((S.toMatrix n).mulVec u)) k =
        ∑ j ∈ Finset.range n, S.entry k j * pointAt (List.ofFn u) j := by
      intro k hk
      rw [Finset.sum_range, pointAt_ofFn _ ⟨k, hk⟩, CoeffMatrix.mulVec_toMatrix]
      simp only [pointAt_ofFn]
    rw [Poly.evaluate_eq_aeval, ← value_eq, hvalue, h.eval_conjugate hvars hxy i.2,
      Finset.sum_range, h.inv_eq, CoeffMatrix.mulVec_toMatrix]
    simp only [Poly.evaluate_eq_aeval, value_eq]
  · ext i j
    have hentry : Y'.linearPart.toMatrix n i j = slope Y'.value i j :=
      linearPart_entry hshape i.2 j.2
    rw [hentry, hvalue, h.slope_conjugate _ i.2 j.2, h.inv_eq, Matrix.mul_assoc, Matrix.mul_apply,
      Finset.sum_range]
    refine Finset.sum_congr rfl fun k _ => ?_
    rw [Matrix.mul_apply, Finset.sum_range]
    refine congrArg (T.entry i k * ·) (Finset.sum_congr rfl fun l _ => ?_)
    rw [← linearPart_entry hX k.2 l.2]
    rfl

theorem conjugate_conjugate {Y : Tuple C} (hY : X.conjugate S T = .ok Y) :
    Y.conjugate T S = .ok X := by
  obtain ⟨Y', hY', hshape, hvalue⟩ := conjugate_eq_ok h hX
  obtain rfl : Y' = Y := Except.ok.inj (hY'.symm.trans hY)
  obtain ⟨Z, hZ, hshape', hvalue'⟩ := conjugate_eq_ok h.symm hshape
  rw [hZ]
  refine congrArg Except.ok (eq_of_values hshape' hX fun k hk => ?_)
  rw [hvalue', hvalue]
  exact h.conjugate_conjugate (fun i k hk => lt_of_mem_vars_value hX hk) hk

omit hX

theorem carriesBrackets_conjugate {vars vars' : Variables} (hvars : vars.size = n)
    (hvars' : vars'.size = n) : CarriesBrackets (fun F => F.conjugate S T) vars vars' := by
  intro F G hF hG
  rw [hvars] at hF hG
  obtain ⟨F', hF', hFshape, hFvalue⟩ := conjugate_eq_ok h hF
  obtain ⟨G', hG', hGshape, hGvalue⟩ := conjugate_eq_ok h hG
  obtain ⟨B', hB', hBshape, hBvalue⟩ := conjugate_eq_ok h (hF.bracket hG)
  refine ⟨F', G', F.bracket G, B', hF', hG', lieBracket_eq_ok (hvars ▸ hF) (hvars ▸ hG), hB', ?_⟩
  rw [lieBracket_eq_ok (hvars' ▸ hFshape) (hvars' ▸ hGshape)]
  refine congrArg Except.ok (value_injective (hFshape.bracket hGshape) hBshape ?_)
  rw [bracket_value hFshape hGshape, hBvalue, bracket_value hF hG, hFvalue, hGvalue]
  exact h.fieldBracket_conjugate (fun i k hk => lt_of_mem_vars_value hF hk)
    fun i k hk => lt_of_mem_vars_value hG hk

end Change

theorem isChopped_chop {n : ℕ} {Y : Tuple C} (hY : Y.Shaped n n) (tolerance : R) :
    IsChopped n tolerance Y (Y.chop tolerance) := by
  have hcoefficient : ∀ (k : ℕ) (m : Monomial), m.length = n →
      ((Y.chop tolerance).component k).coefficient m =
        Poly.chopCoefficient tolerance ((Y.component k).coefficient m) := by
    intro k m hm
    rw [chop]
    by_cases hk : k < Y.size
    · rw [component_map hk, Poly.coefficient_chop (hY.component k) hm]
    · have hsize := not_lt.1 hk
      rw [component_of_size_le hsize, component_of_size_le ((map_size _ _).trans_le hsize)]
      exact (Poly.chopCoefficient_zero tolerance).symm
  refine ⟨hY.map fun _ hp => hp.chop tolerance, fun k m hm => ?_, fun k m hm => ?_⟩
  · rw [hcoefficient k m hm, Poly.chopCoefficient, ExactComplex.re_ofParts]
    rfl
  · rw [hcoefficient k m hm, Poly.chopCoefficient, ExactComplex.im_ofParts]
    rfl

end Tuple

namespace JordanReduction

/-- The reduction of a field by a basis and its inverse, with the field before parts are set to
zero: the changes of coordinates undo each other, and they carry fields and brackets. -/
structure IsConjugation (r : JordanReduction C) (X conjugated : Tuple C) (inverse : CoeffMatrix C)
    (oldVars newVars : Variables) (tolerance : R) : Prop where
  forward_inverse : r.forward.substitute r.inverse = .ok (Tuple.identity oldVars.size)
  inverse_forward : r.inverse.substitute r.forward = .ok (Tuple.identity oldVars.size)
  conjugate : X.conjugate r.basis inverse = .ok conjugated
  isConjugate : Tuple.IsConjugate oldVars.size (r.basis.toMatrix oldVars.size) X conjugated
  isChopped : Tuple.IsChopped oldVars.size tolerance conjugated r.field
  back : r.field = conjugated → r.back r.field = .ok X
  brackets : Tuple.CarriesBrackets (fun F => F.conjugate r.basis inverse) oldVars newVars
  brackets_back : Tuple.CarriesBrackets r.back newVars oldVars

variable [Numeral R]

/-- If the matrix that is taken for the inverse of the basis is its inverse, every reduction is a
conjugation. -/
theorem jordan_isConjugation {L : LinearAlgebra C R} {X : Tuple C} {oldVars newVars : Variables}
    {settings : JordanSettings R} {r : JordanReduction C} (hX : X.WellFormed)
    (h : X.jordan L oldVars newVars settings = .ok r)
    (hinverse : ∀ T, L.inverse? r.basis = some T → T.nrows = oldVars.size ∧
      T.ncols = oldVars.size ∧ r.basis.toMatrix oldVars.size * T.toMatrix oldVars.size = 1) :
    ∃ T conjugated, L.inverse? r.basis = some T ∧
      r.IsConjugation X conjugated T oldVars newVars settings.tolerance := by
  obtain ⟨hcheck, hbasis, T, Y, hT, hY, hr⟩ := of_jordan h
  obtain ⟨hsize, hnvars, hnew⟩ := Tuple.checkJordan_ok hcheck
  obtain ⟨hrows, hcols⟩ := LinearAlgebra.jordanBasis_dimensions hbasis
  rw [Tuple.linearPart_nrows, hsize] at hrows hcols
  obtain ⟨hrows', hcols', hmul⟩ := hinverse T hT
  have hpair : Inverse oldVars.size r.basis T := ⟨⟨hrows, hcols⟩, ⟨hrows', hcols'⟩, hmul⟩
  have hshape := hX.shaped hsize hnvars
  have hconjugate := Tuple.isConjugate_of_conjugate hpair hshape hY
  have hforward : r.forward = Tuple.linear r.basis := congrArg JordanReduction.forward hr
  have hback : r.inverse = Tuple.linear T := congrArg JordanReduction.inverse hr
  have hfield : r.field = Y.chop settings.tolerance := congrArg JordanReduction.field hr
  have hbackward : r.back = fun F => F.conjugate T r.basis := by
    funext F
    rw [back, hback]
    rfl
  refine ⟨T, Y, hT, ?_⟩
  constructor
  case forward_inverse =>
    rw [hforward, hback]
    exact Tuple.substitute_linear_linear hpair
  case inverse_forward =>
    rw [hforward, hback]
    exact Tuple.substitute_linear_linear hpair.symm
  case conjugate => exact hY
  case isConjugate => exact hconjugate
  case isChopped =>
    rw [hfield]
    exact Tuple.isChopped_chop hconjugate.shaped settings.tolerance
  case back =>
    intro hsame
    rw [hsame, hbackward]
    exact Tuple.conjugate_conjugate hpair hshape hY
  case brackets => exact Tuple.carriesBrackets_conjugate hpair rfl hnew
  case brackets_back =>
    rw [hbackward]
    exact Tuple.carriesBrackets_conjugate hpair.symm hnew rfl

section Spiral

deriving instance DecidableEq for CoeffMatrix

/-- Orthonormal eigenvectors of the eigenvalues `3i` and `4`. -/
def spiralBasis : CoeffMatrix GaussianRational :=
  .ofRows [[⟨3 / 5, 0⟩, ⟨4 / 5, 0⟩], [⟨0, 4 / 5⟩, ⟨0, -3 / 5⟩]]

/-- A normal linear part with the eigenvectors `spiralBasis`, a constant and quadratic terms. -/
def spiralField : Tuple GaussianRational :=
  ⟨2, [⟨2, [([0, 0], 2), ([0, 1], ⟨36 / 25, 48 / 25⟩), ([1, 0], ⟨64 / 25, 27 / 25⟩), ([1, 1], 1)]⟩,
    ⟨2, [([0, 1], ⟨36 / 25, 48 / 25⟩), ([1, 0], ⟨-36 / 25, -48 / 25⟩), ([2, 0], ⟨0, 1⟩)]⟩]⟩

/-- Of a normal matrix the singular vectors are the eigenvectors; both eigenvalues have distance
five. -/
def spiralAlgebra : LinearAlgebra GaussianRational ℚ where
  spectrum? _ := some [⟨0, 3⟩, ⟨4, 0⟩]
  singular m :=
    let first := spiralBasis.column 0
    let second := spiralBasis.column 1
    -- the first entry of `m` tells which eigenvalue has been subtracted
    ⟨if m.entry 0 0 = ⟨-36 / 25, 27 / 25⟩ then [(5, first), (0, second)]
      else [(5, second), (0, first)], fun _ _ => none⟩
  inverse? := CoeffMatrix.inverseOf?

/-- The conjugate transpose of `spiralBasis`. -/
def spiralInverse : CoeffMatrix GaussianRational :=
  .ofRows [[⟨3 / 5, 0⟩, ⟨0, -4 / 5⟩], [⟨4 / 5, 0⟩, ⟨0, 3 / 5⟩]]

theorem spiralAlgebra_inverse : spiralAlgebra.inverse? spiralBasis = some spiralInverse := by
  decide +kernel

theorem spiralBasis_mul : spiralBasis.toMatrix 2 * spiralInverse.toMatrix 2 = 1 := by decide +kernel

/-- No part of a coefficient is small in the new coordinates. -/
theorem spiralField_chop {Y : Tuple GaussianRational}
    (hY : spiralField.conjugate spiralBasis spiralInverse = .ok Y) : Y.chop (1 / 10 ^ 8) = Y := by
  have hkept : (spiralField.conjugate spiralBasis spiralInverse).map (·.chop (1 / 10 ^ 8)) =
      spiralField.conjugate spiralBasis spiralInverse := by decide +kernel
  rw [hY] at hkept
  exact Except.ok.inj hkept

theorem jordan_isConjugation_spiral :
    spiralField.WellFormed ∧
      ∃ r, spiralField.jordan spiralAlgebra ⟨["x", "y"]⟩ ⟨["u", "v"]⟩ ⟨1 / 10 ^ 8⟩ = .ok r ∧
        (∀ T, spiralAlgebra.inverse? r.basis = some T → T.nrows = 2 ∧ T.ncols = 2 ∧
          r.basis.toMatrix 2 * T.toMatrix 2 = 1) ∧
        ∃ T conjugated, spiralAlgebra.inverse? r.basis = some T ∧
          r.IsConjugation spiralField conjugated T ⟨["x", "y"]⟩ ⟨["u", "v"]⟩ (1 / 10 ^ 8) ∧
          r.field = conjugated ∧ r.back r.field = .ok spiralField := by
  have hX : spiralField.WellFormed := by decide +kernel
  obtain ⟨r, hr⟩ : ∃ r, spiralField.jordan spiralAlgebra ⟨["x", "y"]⟩ ⟨["u", "v"]⟩
      ⟨1 / 10 ^ 8⟩ = .ok r := exists_eq_ok_of_isOk (by decide +kernel)
  have hjordan : spiralAlgebra.jordanBasis spiralField.linearPart (1 / 10 ^ 8) =
      .ok spiralBasis := by decide +kernel
  obtain ⟨-, hbasis, T', Y', hT', hY', hfields⟩ := of_jordan hr
  have hsame : r.basis = spiralBasis := Except.ok.inj (hbasis.symm.trans hjordan)
  have hunique : ∀ T, spiralAlgebra.inverse? r.basis = some T → spiralInverse = T := fun T hT =>
    Option.some.inj (spiralAlgebra_inverse.symm.trans (hsame ▸ hT))
  have hinverse : ∀ T, spiralAlgebra.inverse? r.basis = some T → T.nrows = 2 ∧ T.ncols = 2 ∧
      r.basis.toMatrix 2 * T.toMatrix 2 = 1 := by
    intro T hT
    rw [← hunique T hT, hsame]
    exact ⟨rfl, rfl, spiralBasis_mul⟩
  obtain ⟨T, Y, hT, hconjugation⟩ := jordan_isConjugation hX hr hinverse
  have hY := hconjugation.conjugate
  rw [← hunique T hT] at hY
  rw [← hunique T' hT'] at hY'
  obtain rfl : Y' = Y := Except.ok.inj (hY'.symm.trans hY)
  have hfield : r.field = Y' :=
    (congrArg JordanReduction.field hfields).trans (spiralField_chop (hsame ▸ hY))
  exact ⟨hX, r, hr, hinverse, T, Y', hT, hconjugation, hfield, hconjugation.back hfield⟩

end Spiral

end JordanReduction

end LieNormalForm

end
