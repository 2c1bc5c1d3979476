import LieNormalForm.Proofs.Homological.Linear
import LieNormalForm.Homological.Nilpotent

/-!
# Solutions of the homological equation

A solution splits the forcing term into a bracket with the linear part and a remainder, the
remainder made of resonant and the generator of eliminable terms. Over exact coefficients
there is at most one: a difference of two generators has a last component, in it a lightest
term, and this term meets its own divisor in the equation.
-/

noncomputable section

open Finset MvPolynomial

namespace LieNormalForm

namespace Tuple

section Law

variable {C W : Type} [Coefficient C W]

/-- No entry of the linear part beside the diagonal. -/
def IsDiagonal (f : Tuple C) : Prop :=
  ∀ i < f.size, ∀ j < f.nvars, j ≠ i → Coefficient.isZero (f.linearPart.entry i j) = true

instance (f : Tuple C) : Decidable f.IsDiagonal :=
  inferInstanceAs (Decidable (∀ i < f.size, ∀ j < f.nvars, j ≠ i →
    Coefficient.isZero (f.linearPart.entry i j) = true))

/-- Every term has degree one. -/
def IsLinear (f : Tuple C) : Prop := ∀ p ∈ f.components, ∀ t ∈ p.terms, t.1.degree = 1

instance (f : Tuple C) : Decidable f.IsLinear :=
  inferInstanceAs (Decidable (∀ p ∈ f.components, ∀ t ∈ p.terms, t.1.degree = 1))

end Law

variable {C W : Type} [Weight W] [ExactField C W] {n : ℕ} {A : Tuple C}

theorem linearPart_entry {len : ℕ} (hA : A.Shaped len n) {i j : ℕ} (hi : i < len) (hj : j < n) :
    A.linearPart.entry i j = slope A.value i j := by
  have hlength : (Monomial.coordinate n j).length = n := Monomial.coordinate_length n j
  rw [linearPart, CoeffMatrix.ofFn_entry _ (by rwa [hA.size_eq]) (by rwa [hA.nvars_eq]),
    hA.nvars_eq, ← Poly.coeff_value (hA.component i) hlength, Monomial.exponents_coordinate hj,
    slope, value_eq]

theorem slope_eq_zero_of_le {len : ℕ} (hA : A.Shaped len n) {i j : ℕ} (h : len ≤ i ∨ n ≤ j) :
    slope A.value i j = 0 := by
  rcases h with hi | hj
  · rw [slope, value_of_size_le (by rwa [hA.size_eq]), coeff_zero]
  · by_contra hne
    have hmem : j ∈ (A.value i).vars := by
      refine (mem_vars_iff_mem_support j).2 ⟨_, mem_support_iff.2 hne, ?_⟩
      rw [Finsupp.mem_support_iff, Finsupp.single_eq_same]
      exact one_ne_zero
    have hlt := lt_of_mem_vars_value hA hmem
    omega

theorem IsLinear.homogeneous (h : A.IsLinear) : A.value ∈ homogeneous 1 := by
  refine mem_homogeneous.2 fun k s hs => ?_
  rw [value_eq] at hs
  obtain ⟨t, ht, rfl⟩ := Poly.exists_mem_of_coeff_ne_zero hs
  have hdegree : t.1.degree = 1 := by
    rw [component, List.getD_eq_getElem?_getD] at ht
    cases hk : A.components[k]? with
    | none =>
      rw [hk] at ht
      cases ht
    | some p =>
      rw [hk] at ht
      exact h p (List.mem_of_getElem? hk) t ht
  have hweight := DFunLike.congr_fun (Finsupp.degree_eq_weight_one (R := ℕ)) t.1.exponents
  exact hweight.symm.trans ((Monomial.degree_exponents t.1).trans hdegree)

theorem IsDiagonal.diagonal (hA : A.Shaped n n) (hlinear : A.IsLinear) (h : A.IsDiagonal) :
    Diagonal A.value := by
  refine ⟨hlinear.homogeneous, fun i j hij => ?_⟩
  by_cases hout : n ≤ i ∨ n ≤ j
  · exact slope_eq_zero_of_le hA hout
  · rw [not_or, not_le, not_le] at hout
    rw [← linearPart_entry hA hout.1 hout.2]
    exact (ExactField.isZero_iff _).1
      (h i (by rw [hA.size_eq]; exact hout.1) j (by rw [hA.nvars_eq]; exact hout.2) hij)

theorem triangular_of_isUpperTriangular (hA : A.Shaped n n) (hlinear : A.IsLinear)
    (h : A.isUpperTriangular = true) : Triangular A.value := by
  refine ⟨hlinear.homogeneous, fun i j hij => ?_⟩
  by_cases hout : n ≤ i ∨ n ≤ j
  · exact slope_eq_zero_of_le hA hout
  · rw [not_or, not_le, not_le] at hout
    rw [isUpperTriangular, List.all_eq_true] at h
    have hrow := h i (List.mem_range.2 (by rw [linearPart_nrows, hA.size_eq]; exact hout.1))
    rw [List.all_eq_true] at hrow
    have hentry := hrow j (List.mem_range.2 (by rw [linearPart_ncols, hA.nvars_eq]; omega))
    rw [← linearPart_entry hA hout.1 hout.2]
    exact (ExactField.isZero_iff _).1 hentry

theorem diagonalEigenvalues_eq (hA : A.Shaped n n) :
    A.diagonalEigenvalues = (List.range n).map fun k => slope A.value k k := by
  rw [diagonalEigenvalues, hA.size_eq, hA.nvars_eq, min_self]
  refine List.map_congr_left fun k hk => ?_
  have hk := List.mem_range.1 hk
  exact linearPart_entry hA hk hk

end Tuple

variable {C W : Type} [Weight W] [ExactField C W]

section Divisor

theorem sum_zipWith_mulNat (m : Monomial) (f : ℕ → C) :
    (List.zipWith (fun e l => Coefficient.mulNat l e) m ((List.range m.length).map f)).sum =
      ∑ j ∈ range m.length, (m.exponent j : C) * f j := by
  induction m generalizing f with
  | nil => rfl
  | cons e m ih =>
    rw [List.length_cons, List.range_succ_eq_map, List.map_cons, List.map_map, List.zipWith_cons_cons,
      List.sum_cons, ih, sum_range_succ', add_comm, ExactField.mulNat_eq, mul_comm]
    rfl

variable {n : ℕ} {A : Tuple C}

theorem divisor_eq_gap (hA : A.Shaped n n) {m : Monomial} (hm : m.length = n) (k : ℕ) :
    divisor m A.diagonalEigenvalues (slope A.value k k) = gap A.value k m.exponents := by
  have hsupport : m.exponents.support ⊆ range n := by
    intro j hj
    rw [Finsupp.mem_support_iff, Monomial.exponents_apply] at hj
    refine mem_range.2 (not_le.1 fun hle => hj ?_)
    exact List.getD_eq_default _ _ (by omega)
  rw [divisor, gap, Tuple.diagonalEigenvalues_eq hA, Coefficient.sum, ← List.sum_eq_foldl, ← hm,
    sum_zipWith_mulNat, rate, Finsupp.sum_of_support_subset _ (hm ▸ hsupport) _ fun j _ => by
      rw [Nat.cast_zero, zero_mul]]
  rfl

variable {test : ZeroTest C}

theorem classify_gap (hA : A.Shaped n n) {k : ℕ} (hk : k < n) {m : Monomial} (hm : m.length = n) :
    classify k m A.diagonalEigenvalues test =
      if test (gap A.value k m.exponents) then .ok .resonant
      else if Coefficient.isZero (gap A.value k m.exponents) then .error (.singularDivisor k m)
      else .ok (.eliminable (gap A.value k m.exponents)) := by
  have hlength : A.diagonalEigenvalues.length = m.length := by
    rw [Tuple.diagonalEigenvalues_eq hA, List.length_map, List.length_range, hm]
  have hget : A.diagonalEigenvalues[k]? = some (slope A.value k k) := by
    rw [Tuple.diagonalEigenvalues_eq hA, List.getElem?_map, List.getElem?_range hk, Option.map_some]
  rw [classify_eq hlength hget, divisor_eq_gap hA hm]

theorem classify_eliminable_gap (hA : A.Shaped n n) {k : ℕ} (hk : k < n) {m : Monomial}
    (hm : m.length = n) {d : C}
    (h : classify k m A.diagonalEigenvalues test = .ok (.eliminable d)) :
    d = gap A.value k m.exponents ∧ d ≠ 0 := by
  have hzero := (classify_eliminable h).2
  rw [classify_gap hA hk hm] at h
  split at h
  · cases h
  · split at h
    · cases h
    · cases h
      exact ⟨rfl, (ExactField.isZero_eq_false_iff _).1 hzero⟩

end Divisor

/-- A field whose bracket with a triangular linear field vanishes wherever the field has a
coefficient, is zero if it has coefficients only in front of gaps that are not zero. -/
theorem Triangular.eq_zero_of_bracket {A : Sequence C} {n : ℕ}
    (hvars : ∀ k, ∀ j ∈ (A k).vars, j < n) (h : Triangular A) {Z : Sequence C}
    (hZ : ∀ k, n ≤ k → Z k = 0)
    (hgap : ∀ k s, coeff s (Z k) ≠ 0 →
      gap A k s ≠ 0 ∧ coeff s ((derive Z A - derive A Z) k) = 0) : Z = 0 := by
  -- downward over the components, and within one of them upward over the weight
  have hfrom : ∀ i k, n ≤ k + i → Z k = 0 := by
    intro i
    induction i with
    | zero => exact hZ
    | succ i ih =>
      intro k hk
      have hlater : ∀ j, k < j → Z j = 0 := fun j hj => ih j (by omega)
      have hweight : ∀ w, ∀ s : ℕ →₀ ℕ, heft s = w → coeff s (Z k) = 0 := by
        intro w
        induction w using Nat.strong_induction_on with
        | _ w ihw =>
          intro s hs
          by_contra hne
          obtain ⟨hdivisor, hbracket⟩ := hgap k s hne
          have hlighter : ∀ r, heft r < heft s → coeff r (Z k) = 0 :=
            fun r hr => ihw (heft r) (by omega) r rfl
          rw [h.coeff_bracket hvars hZ hlater hlighter] at hbracket
          exact (mul_ne_zero hdivisor hne) hbracket
      ext s
      rw [hweight _ s rfl, coeff_zero]
  funext k
  exact hfrom n k (by omega)

deriving instance DecidableEq for Split

namespace Split

/-- The equation `[A, Y] + G = F`, with terms on the side that their divisors put them on. -/
structure Solves (linear : Tuple C) (eigenvalues : List C) (forcing : Tuple C)
    (test : ZeroTest C) (s : Split C) : Prop where
  remainder_shaped : s.remainder.Shaped forcing.size forcing.nvars
  generator_shaped : s.generator.Shaped forcing.size forcing.nvars
  equation : linear.bracket s.generator + s.remainder = forcing
  resonant : ∀ k, ∀ t ∈ (s.remainder.component k).terms,
    classify k t.1 eigenvalues test = .ok .resonant
  eliminable : ∀ k, ∀ t ∈ (s.generator.component k).terms,
    ∃ d, classify k t.1 eigenvalues test = .ok (.eliminable d)

namespace Solves

variable {linear forcing : Tuple C} {eigenvalues : List C} {test : ZeroTest C} {s s' : Split C}
  {n : ℕ}

theorem exists_resonant (h : s.Solves linear eigenvalues forcing test)
    (hF : forcing.Shaped n n) {k : ℕ} {r : ℕ →₀ ℕ} (hr : coeff r (s.remainder.value k) ≠ 0) :
    ∃ m : Monomial, m.length = n ∧ m.exponents = r ∧
      classify k m eigenvalues test = .ok .resonant := by
  rw [Tuple.value_eq] at hr
  obtain ⟨t, ht, hts⟩ := Poly.exists_mem_of_coeff_ne_zero hr
  have hlength := (h.remainder_shaped.component k).terms.length t ht
  rw [hF.nvars_eq] at hlength
  exact ⟨t.1, hlength, hts, h.resonant k t ht⟩

theorem exists_eliminable (h : s.Solves linear eigenvalues forcing test)
    (hF : forcing.Shaped n n) {k : ℕ} {r : ℕ →₀ ℕ} (hr : coeff r (s.generator.value k) ≠ 0) :
    ∃ m : Monomial, m.length = n ∧ m.exponents = r ∧
      ∃ d, classify k m eigenvalues test = .ok (.eliminable d) := by
  rw [Tuple.value_eq] at hr
  obtain ⟨t, ht, hts⟩ := Poly.exists_mem_of_coeff_ne_zero hr
  have hlength := (h.generator_shaped.component k).terms.length t ht
  rw [hF.nvars_eq] at hlength
  exact ⟨t.1, hlength, hts, h.eliminable k t ht⟩

theorem shapes (h : s.Solves linear eigenvalues forcing test) (hF : forcing.Shaped n n) :
    s.remainder.Shaped n n ∧ s.generator.Shaped n n := by
  have hremainder := h.remainder_shaped
  have hgenerator := h.generator_shaped
  rw [hF.size_eq, hF.nvars_eq] at hremainder hgenerator
  exact ⟨hremainder, hgenerator⟩

/-- The equation may be checked on the values. -/
theorem of_value (hA : linear.Shaped n n) (hF : forcing.Shaped n n)
    (hG : s.remainder.Shaped n n) (hY : s.generator.Shaped n n)
    (hequation : derive s.generator.value linear.value - derive linear.value s.generator.value +
      s.remainder.value = forcing.value)
    (hresonant : ∀ k, ∀ t ∈ (s.remainder.component k).terms,
      classify k t.1 eigenvalues test = .ok .resonant)
    (heliminable : ∀ k, ∀ t ∈ (s.generator.component k).terms,
      ∃ d, classify k t.1 eigenvalues test = .ok (.eliminable d)) :
    s.Solves linear eigenvalues forcing test := by
  have hbracket := hA.bracket hY
  refine ⟨?_, ?_, ?_, hresonant, heliminable⟩
  · rwa [hF.size_eq, hF.nvars_eq]
  · rwa [hF.size_eq, hF.nvars_eq]
  · refine Tuple.value_injective (hbracket.add hG) hF ?_
    rw [Tuple.value_add (hbracket.size_eq.trans hG.size_eq.symm), Tuple.value_bracket hA hY]
    exact hequation

theorem value_equation (h : s.Solves linear eigenvalues forcing test) (hA : linear.Shaped n n)
    (hF : forcing.Shaped n n) :
    derive s.generator.value linear.value - derive linear.value s.generator.value +
      s.remainder.value = forcing.value := by
  obtain ⟨hG, hY⟩ := h.shapes hF
  have hbracket := hA.bracket hY
  rw [← Tuple.value_bracket hA hY,
    ← Tuple.value_add (hbracket.size_eq.trans hG.size_eq.symm), h.equation]

theorem remainder_coeff_eq_zero (h : s.Solves linear eigenvalues forcing test)
    (hF : forcing.Shaped n n) {k : ℕ} {m : Monomial} (hm : m.length = n) {d : C}
    (hd : classify k m eigenvalues test = .ok (.eliminable d)) :
    coeff m.exponents (s.remainder.value k) = 0 := by
  by_contra hne
  obtain ⟨m', hm', hexponents, hresonant⟩ := h.exists_resonant hF hne
  obtain rfl := Monomial.exponents_injective (hm'.trans hm.symm) hexponents
  rw [hd] at hresonant
  cases hresonant

theorem unique (hA : linear.Shaped n n) (htriangular : Triangular linear.value)
    (hF : forcing.Shaped n n) (h : s.Solves linear linear.diagonalEigenvalues forcing test)
    (h' : s'.Solves linear linear.diagonalEigenvalues forcing test) : s' = s := by
  obtain ⟨hG, hY⟩ := h.shapes hF
  obtain ⟨hG', hY'⟩ := h'.shapes hF
  have hequation := h.value_equation hA hF
  have hequation' := h'.value_equation hA hF
  have hbracket : derive (s'.generator.value - s.generator.value) linear.value -
      derive linear.value (s'.generator.value - s.generator.value) =
        s.remainder.value - s'.remainder.value := by
    rw [map_sub, LinearMap.sub_apply, map_sub, sub_sub_sub_comm,
      ← sub_eq_iff_eq_add.2 hequation.symm, ← sub_eq_iff_eq_add.2 hequation'.symm, sub_sub_sub_cancel_left]
  have hzero : ∀ k, n ≤ k → (s'.generator.value - s.generator.value) k = 0 := by
    intro k hk
    rw [Pi.sub_apply, Tuple.value_of_size_le (by rwa [hY'.size_eq]),
      Tuple.value_of_size_le (by rwa [hY.size_eq]), sub_zero]
  -- where the difference has a term, both remainders have none
  have hsame : s'.generator.value - s.generator.value = 0 := by
    refine htriangular.eq_zero_of_bracket (fun k j => Tuple.lt_of_mem_vars_value hA) hzero
      fun k r hr => ?_
    have hk : k < n := by
      by_contra hle
      rw [hzero k (by omega), coeff_zero] at hr
      exact hr rfl
    have hterm : ∃ m : Monomial, m.length = n ∧ m.exponents = r ∧
        ∃ d, classify k m linear.diagonalEigenvalues test = .ok (.eliminable d) := by
      by_cases hY'r : coeff r (s'.generator.value k) = 0
      · refine h.exists_eliminable hF fun hYr => hr ?_
        rw [Pi.sub_apply, coeff_sub, hYr, hY'r, sub_zero]
      · exact h'.exists_eliminable hF hY'r
    obtain ⟨m, hm, rfl, d, hd⟩ := hterm
    obtain ⟨rfl, hne⟩ := classify_eliminable_gap hA hk hm hd
    refine ⟨hne, ?_⟩
    rw [hbracket, Pi.sub_apply, coeff_sub, h.remainder_coeff_eq_zero hF hm hd,
      h'.remainder_coeff_eq_zero hF hm hd, sub_zero]
  have hgenerator := Tuple.value_injective hY' hY (sub_eq_zero.1 hsame)
  have hremainder : s'.remainder = s.remainder := by
    refine Tuple.value_injective hG' hG ?_
    rw [hgenerator] at hequation'
    exact add_left_cancel (hequation'.trans hequation.symm)
  exact congrArg₂ Split.mk hremainder hgenerator

end Solves

end Split

end LieNormalForm

end
