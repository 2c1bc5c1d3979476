import LieNormalForm.Proofs.Homological.Split
import LieNormalForm.Homological.Nilpotent

/-!
# The solution for upper-triangular linear parts

The sweep keeps the balance of residual, remainder and bracket. A term that is removed cancels
exactly over exact coefficients, so that dropping what is left of it loses nothing; and its
bracket reaches no later component, so that finished components stay finished.
-/

noncomputable section

open MvPolynomial

namespace LieNormalForm

namespace Split

namespace Sweep

variable {C W : Type} [Weight W] [ExactField C W]

/-- What holds while component `k - 1` is swept: later components are finished. -/
structure Invariant (A forcing : Tuple C) (test : ZeroTest C) (n k : ℕ) (s : Sweep C) : Prop where
  residual : s.residual.Shaped n n
  remainder : s.remainder.Shaped n n
  generator : s.generator.Shaped n n
  balance : s.residual.value + LieOperator.bracket.act A.value s.generator.value +
    s.remainder.value = forcing.value
  finished : ∀ j, k ≤ j → s.residual.value j = 0
  resonant : ∀ j, ∀ t ∈ (s.remainder.component j).terms,
    classify j t.1 A.diagonalEigenvalues test = .ok .resonant
  eliminable : ∀ j, ∀ t ∈ (s.generator.component j).terms,
    ∃ d, classify j t.1 A.diagonalEigenvalues test = .ok (.eliminable d)

section Terms

variable {P : ℕ → Monomial → Prop} {f : Tuple C} {k : ℕ} {m : Monomial}

theorem forall_modify_addTerm (hk : k < f.size) (hm : P k m)
    (hf : ∀ j, ∀ t ∈ (f.component j).terms, P j t.1) (c : C) (j : ℕ) :
    ∀ t ∈ ((f.modify k fun p => p.addTerm m c).component j).terms, P j t.1 := by
  rw [Tuple.component_modify hk]
  split
  · rename_i hj
    rw [hj]
    exact Poly.forall_addTerm hm (hf k) c
  · exact hf j

end Terms

variable {A forcing : Tuple C} {test : ZeroTest C} {n k : ℕ} {s s' : Sweep C}

theorem start_invariant (hF : forcing.Shaped n n) :
    (start forcing).Invariant A forcing test n n := by
  have hzeros : (Tuple.zeros forcing.size forcing.nvars : Tuple C).Shaped n n := by
    rw [hF.size_eq, hF.nvars_eq]
    exact .zeros n n
  have hnone : ∀ j, ((Tuple.zeros forcing.size forcing.nvars : Tuple C).component j).terms = [] := by
    intro j
    rw [Tuple.component, Tuple.zeros, List.getD_eq_getElem?_getD, List.getElem?_replicate]
    split <;> rfl
  refine ⟨hF, hzeros, hzeros, ?_, ?_, ?_, ?_⟩
  · simp only [start, Tuple.value_zeros, map_zero, add_zero]
  · intro j hj
    exact Tuple.value_of_size_le (by rwa [start, hF.size_eq])
  · intro j t ht
    rw [start, hnone] at ht
    cases ht
  · intro j t ht
    rw [start, hnone] at ht
    cases ht

theorem keep_invariant (hk : k < n) {t : Term C} (ht : t ∈ (s.residual.component k).terms)
    (hclass : classify k t.1 A.diagonalEigenvalues test = .ok .resonant)
    (hs : s.Invariant A forcing test n (k + 1)) :
    (s.keep k t).Invariant A forcing test n (k + 1) := by
  have hlength := (hs.residual.component k).terms.length t ht
  have hcoeff := Tuple.coeff_value_of_mem hs.residual ht
  have hresidual : (s.keep k t).residual.value =
      s.residual.value - Pi.single k (monomial t.1.exponents t.2) := by
    rw [keep, Tuple.value_modify_removeTerm hs.residual hk hlength, hcoeff]
  have hremainder : (s.keep k t).remainder.value =
      s.remainder.value + Pi.single k (monomial t.1.exponents t.2) :=
    Tuple.value_modify_addTerm (by rwa [hs.remainder.size_eq]) t.1 t.2
  refine ⟨hs.residual.modify k fun p hp => hp.removeTerm t.1,
    hs.remainder.modify k fun p hp => hp.addTerm hlength t.2, hs.generator, ?_, ?_, ?_,
    hs.eliminable⟩
  · rw [hresidual, hremainder, keep_generator, ← hs.balance]
    abel
  · intro j hj
    rw [hresidual, Pi.sub_apply, hs.finished j hj, Pi.single_eq_of_ne (by omega), sub_zero]
  · exact forall_modify_addTerm
      (P := fun j m => classify j m A.diagonalEigenvalues test = .ok .resonant)
      (by rwa [hs.remainder.size_eq]) hclass hs.resonant t.2

/-- The term cancels, and the removal by hand has nothing left to remove. -/
theorem eliminate_residual (hA : A.Shaped n n) (htriangular : Triangular A.value) (hk : k < n)
    (hresidual : s.residual.Shaped n n) {t : Term C} (ht : t ∈ (s.residual.component k).terms)
    {d : C} (hclass : classify k t.1 A.diagonalEigenvalues test = .ok (.eliminable d)) :
    (eliminate A s k t.1 (t.2 / d)).residual.Shaped n n ∧
      (eliminate A s k t.1 (t.2 / d)).residual.value = s.residual.value -
        LieOperator.bracket.act A.value (Pi.single k (monomial t.1.exponents (t.2 / d))) := by
  have hlength := (hresidual.component k).terms.length t ht
  obtain ⟨hgap, hne⟩ := classify_eliminable_gap hA hk hlength hclass
  have hy : (Tuple.single s.residual.size k (Poly.ofTerm t.1 (t.2 / d))).Shaped n n := by
    rw [hresidual.size_eq]
    exact .single n k (hlength ▸ .ofTerm t.1 _)
  have hyvalue : (Tuple.single s.residual.size k (Poly.ofTerm t.1 (t.2 / d))).value =
      Pi.single k (monomial t.1.exponents (t.2 / d)) := by
    rw [Tuple.value_single (by rwa [hresidual.size_eq]), Poly.value_ofTerm]
  have hbracket := hA.bracket hy
  have hdifference := hresidual.sub hbracket
  have hvalue : (s.residual - A.bracket (Tuple.single s.residual.size k
      (Poly.ofTerm t.1 (t.2 / d)))).value = s.residual.value - LieOperator.bracket.act A.value
        (Pi.single k (monomial t.1.exponents (t.2 / d))) := by
    rw [Tuple.value_sub (hresidual.size_eq.trans hbracket.size_eq.symm),
      Tuple.value_bracket hA hy, hyvalue]
    rfl
  refine ⟨hdifference.modify k fun p hp => hp.removeTerm t.1, ?_⟩
  have hpivot := htriangular.coeff_bracket_single (fun j i => Tuple.lt_of_mem_vars_value hA) hk
    t.1.exponents (t.2 / d)
  rw [← hgap, mul_div_cancel₀ _ hne] at hpivot
  rw [eliminate, Tuple.value_modify_removeTerm hdifference hk hlength, hvalue, Pi.sub_apply,
    coeff_sub, Tuple.coeff_value_of_mem hresidual ht, LieOperator.act_bracket, hpivot, sub_self,
    map_zero, Pi.single_zero, sub_zero]

theorem eliminate_invariant (hA : A.Shaped n n) (htriangular : Triangular A.value) (hk : k < n)
    {t : Term C} (ht : t ∈ (s.residual.component k).terms) {d : C}
    (hclass : classify k t.1 A.diagonalEigenvalues test = .ok (.eliminable d))
    (hs : s.Invariant A forcing test n (k + 1)) :
    (eliminate A s k t.1 (t.2 / d)).Invariant A forcing test n (k + 1) := by
  have hlength := (hs.residual.component k).terms.length t ht
  obtain ⟨hshape, hresidual⟩ := eliminate_residual hA htriangular hk hs.residual ht hclass
  have hgenerator : (eliminate A s k t.1 (t.2 / d)).generator.value =
      s.generator.value + Pi.single k (monomial t.1.exponents (t.2 / d)) :=
    Tuple.value_modify_addTerm (by rwa [hs.generator.size_eq]) t.1 _
  have hlater : ∀ j, k < j →
      (Pi.single k (monomial t.1.exponents (t.2 / d)) : Sequence C) j = 0 :=
    fun j hj => Pi.single_eq_of_ne (by omega) _
  refine ⟨hshape, hs.remainder, hs.generator.modify k fun p hp => hp.addTerm hlength _, ?_, ?_,
    hs.resonant, ?_⟩
  · rw [hresidual, hgenerator, eliminate_remainder, map_add, ← hs.balance]
    abel
  · intro j hj
    rw [hresidual, Pi.sub_apply, hs.finished j hj, LieOperator.act_bracket,
      htriangular.bracket_eq_zero (fun j i => Tuple.lt_of_mem_vars_value hA)
        (fun i hi => hlater i (by omega)) (fun i hi => hlater i (by omega)), sub_zero]
  · exact forall_modify_addTerm
      (P := fun j m => ∃ d, classify j m A.diagonalEigenvalues test = .ok (.eliminable d))
      (by rwa [hs.generator.size_eq]) ⟨d, hclass⟩ hs.eliminable _

theorem handle_invariant (hA : A.Shaped n n) (htriangular : Triangular A.value) (hk : k < n)
    {t : Term C} (ht : t ∈ (s.residual.component k).terms)
    (h : handle A A.diagonalEigenvalues test s k t = .ok s')
    (hs : s.Invariant A forcing test n (k + 1)) : s'.Invariant A forcing test n (k + 1) := by
  unfold handle at h
  split at h
  · cases h
  · rename_i hclass
    cases h
    exact keep_invariant hk ht hclass hs
  · rename_i d hclass
    cases h
    exact eliminate_invariant hA htriangular hk ht hclass hs

theorem component_preserves (hA : A.Shaped n n) (htriangular : Triangular A.value) (hk : k < n)
    {budget : ℕ} (h : component A A.diagonalEigenvalues test k budget s = .ok s')
    (hs : s.Invariant A forcing test n (k + 1)) : s'.Invariant A forcing test n (k + 1) := by
  induction budget generalizing s with
  | zero =>
    simp only [component] at h
    split at h
    · cases h
      exact hs
    · cases h
  | succ budget ih =>
    simp only [component] at h
    split at h
    · cases h
      exact hs
    · rename_i t hlightest
      split at h
      · cases h
      · rename_i s₁ hhandle
        exact ih h (handle_invariant hA htriangular hk (Poly.lightest?_mem hlightest) hhandle hs)

/-- The sweep of a component finishes it. -/
theorem component_invariant (hA : A.Shaped n n) (htriangular : Triangular A.value) (hk : k < n)
    {budget : ℕ} (h : component A A.diagonalEigenvalues test k budget s = .ok s')
    (hs : s.Invariant A forcing test n (k + 1)) : s'.Invariant A forcing test n k := by
  have hs' := component_preserves hA htriangular hk h hs
  refine ⟨hs'.residual, hs'.remainder, hs'.generator, hs'.balance, ?_, hs'.resonant,
    hs'.eliminable⟩
  intro j hj
  rcases Nat.eq_or_lt_of_le hj with rfl | hlt
  · rw [Tuple.value_eq]
    exact (Poly.isZero_iff_value (hs'.residual.component k)).1 (component_residual h)
  · exact hs'.finished j hlt

theorem components_invariant (hA : A.Shaped n n) (htriangular : Triangular A.value)
    {budget count : ℕ} (hcount : count ≤ n)
    (h : components A A.diagonalEigenvalues test budget count s = .ok s')
    (hs : s.Invariant A forcing test n count) : s'.Invariant A forcing test n 0 := by
  induction count generalizing s with
  | zero =>
    cases h
    exact hs
  | succ k ih =>
    simp only [components] at h
    split at h
    · cases h
    · rename_i s₁ hcomponent
      exact ih (by omega) h (component_invariant hA htriangular (by omega) hcomponent hs)

end Sweep

variable {C W : Type} [Weight W] [ExactField C W] {A forcing : Tuple C} {test : ZeroTest C} {n : ℕ}

/-- A sweep that ends solves the equation for an upper-triangular linear part. -/
theorem nilpotent_solves (hA : A.Shaped n n) (hlinear : A.IsLinear) (hF : forcing.Shaped n n)
    {s : Split C} (h : nilpotent A A.diagonalEigenvalues forcing test = .ok s) :
    Triangular A.value ∧ s.Solves A A.diagonalEigenvalues forcing test := by
  unfold nilpotent nilpotentWithin at h
  split at h
  · cases h
  · split at h
    · rename_i hupper
      have htriangular := Tuple.triangular_of_isUpperTriangular hA hlinear hupper
      refine ⟨htriangular, ?_⟩
      split at h
      · cases h
      · rename_i sweep hsweep
        cases h
        rw [hF.size_eq] at hsweep
        have hs := Sweep.components_invariant hA htriangular le_rfl hsweep
          (Sweep.start_invariant hF)
        have hresidual : sweep.residual.value = 0 := funext fun j => hs.finished j j.zero_le
        have hbalance := hs.balance
        rw [hresidual, zero_add] at hbalance
        exact .of_value hA hF hs.remainder hs.generator hbalance hs.resonant hs.eliminable
    · cases h

end Split

end LieNormalForm

end
