import LieNormalForm.Proofs.Homological.Order
import LieNormalForm.Proofs.Symmetry.Basic

/-!
# Symmetries of the homological equation

A permuted term meets the permuted divisor and is sorted as before. The terms of a permuted right
side come in another order, but the order of the terms does not matter; so the permuted equation
has the permuted split, or no split if the equation has none.
-/

namespace LieNormalForm

open MvPolynomial (coeff)

namespace Symmetry

variable {n : ℕ} (s : Symmetry n) {C R : Type} [ExactReal R] [ExactComplex C R]

section Divisor

theorem slope_sequence (A : Sequence C) (k j : ℕ) :
    slope (s.sequence A) (s.index k) (s.index j) = s.number (slope A k j) := by
  rw [slope, sequence_index, ← Finsupp.mapDomain_single, coeff_act, slope]

theorem gap_sequence (A : Sequence C) (k : ℕ) (e : ℕ →₀ ℕ) :
    gap (s.sequence A) (s.index k) (e.mapDomain s.index) = s.number (gap A k e) := by
  have hrate : rate (s.sequence A) (e.mapDomain s.index) = s.number (rate A e) := by
    rw [rate, rate, Finsupp.sum_mapDomain_index (fun j => by rw [Nat.cast_zero, zero_mul])
      (fun j a b => by rw [Nat.cast_add, add_mul]), Finsupp.sum, Finsupp.sum, map_sum]
    refine Finset.sum_congr rfl fun j _ => ?_
    rw [slope_sequence, map_mul, map_natCast]
  rw [gap, gap, slope_sequence, hrate, map_sub]

variable {A : Tuple C} (hA : A.Shaped n n)
include hA

theorem diagonalEigenvalues_tuple :
    (s.tuple A).diagonalEigenvalues = s.eigenvalues A.diagonalEigenvalues := by
  rw [Tuple.diagonalEigenvalues_eq (s.shaped_tuple hA), eigenvalues, hA.diagonalEigenvalues_length,
    s.value_tuple hA]
  refine List.map_congr_left fun k hk => ?_
  have hk := s.index_symm_lt (List.mem_range.1 hk)
  have hslope := s.slope_sequence A.value (s.index.symm k) (s.index.symm k)
  rw [Equiv.apply_symm_apply] at hslope
  rw [hslope, Tuple.diagonalEigenvalues_eq hA, List.getD_eq_getElem?_getD, List.getElem?_map,
    List.getElem?_range hk]
  rfl

end Divisor

/-- What becomes of a term, with the image of its divisor. -/
def resonance : Resonance C → Resonance C
  | .resonant => .resonant
  | .eliminable d => .eliminable (s.number d)

/-- The halves of a component, in permuted variables. -/
def halves (h : Split.Halves C) : Split.Halves C := ⟨s.poly h.remainder, s.poly h.generator⟩

/-- A split in permuted variables. -/
def split (h : Split C) : Split C := ⟨s.tuple h.remainder, s.tuple h.generator⟩

theorem poly_addTerm {p : Poly C} (hp : p.Canonical n) {m : Monomial} (hm : m.length = n) (c : C) :
    s.poly (p.addTerm m c) = (s.poly p).addTerm (s.monomial m) (s.number c) := by
  have hsum := hp.addTerm hm c
  have hterm := (s.canonical_poly hp).addTerm ((s.monomial_length m).trans hm) (s.number c)
  refine Poly.value_injective (s.canonical_poly hsum) hterm ?_
  rw [s.value_poly hsum, Poly.value_addTerm, Poly.value_addTerm, s.value_poly hp, map_add,
    act_monomial, s.exponents_monomial hm]

theorem halves_place {h : Split.Halves C} (hremainder : h.remainder.Canonical n)
    (hgenerator : h.generator.Canonical n) {t : Term C} (ht : t.1.length = n) (r : Resonance C) :
    s.halves (h.place t r) = (s.halves h).place (s.term t) (s.resonance r) := by
  cases r with
  | resonant => exact congrArg₂ Split.Halves.mk (s.poly_addTerm hremainder ht t.2) rfl
  | eliminable d =>
    have hterm := s.poly_addTerm hgenerator ht (t.2 / d)
    rw [map_div₀] at hterm
    exact congrArg₂ Split.Halves.mk rfl hterm

variable {A : Tuple C} {test : ZeroTest C} (hA : A.Shaped n n)
  (htest : s.conjugates = true → ∀ d, test (ComplexNumber.conj d) = test d)
include hA htest

theorem classify_tuple {k : ℕ} (hk : k < n) {m : Monomial} (hm : m.length = n) :
    classify (s.index k) (s.monomial m) (s.tuple A).diagonalEigenvalues test =
      match classify k m A.diagonalEigenvalues test with
      | .ok r => .ok (s.resonance r)
      | .error _ => .error (.singularDivisor (s.index k) (s.monomial m)) := by
  rw [classify_gap (s.shaped_tuple hA) (s.index_lt hk) ((s.monomial_length m).trans hm),
    classify_gap hA hk hm, s.value_tuple hA, s.exponents_monomial hm, gap_sequence,
    s.test_number htest, isZero_number]
  split
  · rfl
  · split <;> rfl

theorem sortTerms_tuple {k : ℕ} (hk : k < n) {ts : List (Term C)}
    (hts : ∀ t ∈ ts, t.1.length = n) {h h' : Split.Halves C}
    (hh : h.Sound n k A.diagonalEigenvalues test)
    (hok : Split.sortTerms A.diagonalEigenvalues test k h ts = .ok h') :
    Split.sortTerms (s.tuple A).diagonalEigenvalues test (s.index k) (s.halves h) (ts.map s.term) =
      .ok (s.halves h') := by
  induction ts generalizing h with
  | nil =>
    cases hok
    rfl
  | cons t ts ih =>
    obtain ⟨ht, hts⟩ := List.forall_mem_cons.1 hts
    have hclass := s.classify_tuple hA htest hk ht
    rw [Split.sortTerms] at hok
    rw [List.map_cons, Split.sortTerms, Split.sortTerm_eq, term, hclass]
    cases hr : classify k t.1 A.diagonalEigenvalues test with
    | error e =>
      rw [Split.sortTerm_eq, hr] at hok
      cases hok
    | ok r =>
      have hterm : Split.sortTerm A.diagonalEigenvalues test k h t = .ok (h.place t r) := by
        rw [Split.sortTerm_eq, hr]
        rfl
      rw [hterm] at hok
      have hrest := ih hts (Split.sortTerm_sound ht hterm hh) hok
      rw [s.halves_place hh.remainder hh.generator ht] at hrest
      exact hrest

variable {forcing : Tuple C} (hF : forcing.Shaped n n)
include hF

theorem sorts_tuple {h : Split C} (hsorts : Split.Sorts A.diagonalEigenvalues test n forcing h) :
    Split.Sorts (s.tuple A).diagonalEigenvalues test n (s.tuple forcing) (s.split h) := by
  obtain ⟨hremainder, hgenerator⟩ := hsorts.shaped hF
  have hsremainder := s.shaped_tuple hremainder
  have hsgenerator := s.shaped_tuple hgenerator
  refine ⟨hsremainder.size_eq, hsgenerator.size_eq, hsremainder.nvars_eq, hsgenerator.nvars_eq,
    fun k hk => ?_⟩
  -- component `k` is the image of the one that the permutation takes to its place
  obtain ⟨k, rfl⟩ := s.index.surjective k
  have hk : k < n := by
    rw [← s.index.symm_apply_apply k]
    exact s.index_symm_lt hk
  have hp := hF.component k
  have hperm := s.terms_poly_perm hp
  have hsorted := s.sortTerms_tuple hA htest hk hp.terms.length (.zero n k _ test)
    (hsorts.sorted k hk)
  rw [split, s.component_tuple hF, s.component_tuple hremainder, s.component_tuple hgenerator,
    Equiv.symm_apply_apply]
  refine Split.sortTerms_perm hperm.symm ?_ ?_ (.zero n _ _ test) hsorted
  · exact (hperm.map Prod.fst).nodup_iff.1 (s.canonical_poly hp).terms.sorted.nodup_monomials
  · exact fun t ht => (s.canonical_poly hp).terms.length t (hperm.mem_iff.2 ht)

theorem refuses_tuple {e : Error}
    (hrefuses : Split.Refuses A.diagonalEigenvalues test n forcing e) :
    ∃ e', Split.Refuses (s.tuple A).diagonalEigenvalues test n (s.tuple forcing) e' := by
  obtain ⟨k, hk, t, ht, hclass⟩ := hrefuses
  have hp := hF.component k
  have hclass' := s.classify_tuple hA htest hk (hp.terms.length t ht)
  rw [hclass] at hclass'
  refine ⟨_, s.index k, s.index_lt hk, s.term t, ?_, hclass'⟩
  rw [s.component_tuple hF, Equiv.symm_apply_apply]
  exact (s.terms_poly_perm hp).mem_iff.2 (List.mem_map_of_mem ht)

/-- The permuted equation has the permuted split, or both have none. -/
theorem semisimple_tuple :
    Follows s.split (Split.semisimple A A.diagonalEigenvalues forcing test)
      (Split.semisimple (s.tuple A) (s.tuple A).diagonalEigenvalues (s.tuple forcing) test) := by
  have hsA := s.shaped_tuple hA
  have hsF := s.shaped_tuple hF
  have hsorting := Split.semisimple_sorting test hF.size_eq hF.nvars_eq
    (Split.checkInput_eq_ok hF.size_eq hF.nvars_eq hA.size_eq hA.nvars_eq
      hA.diagonalEigenvalues_length)
  have hsorting' := Split.semisimple_sorting test hsF.size_eq hsF.nvars_eq
    (Split.checkInput_eq_ok hsF.size_eq hsF.nvars_eq hsA.size_eq hsA.nvars_eq
      hsA.diagonalEigenvalues_length)
  cases hsplit : Split.semisimple A A.diagonalEigenvalues forcing test with
  | ok h =>
    rw [hsplit] at hsorting
    have hsorts := s.sorts_tuple hA htest hF hsorting
    cases hsplit' : Split.semisimple (s.tuple A) (s.tuple A).diagonalEigenvalues (s.tuple forcing)
        test with
    | ok h' =>
      rw [hsplit'] at hsorting'
      exact .inl ⟨h, rfl, congrArg Except.ok (hsorting'.unique hsorts)⟩
    | error e' =>
      rw [hsplit'] at hsorting'
      exact absurd hsorting' hsorts.not_refuses
  | error e =>
    rw [hsplit] at hsorting
    obtain ⟨e', hrefuses⟩ := s.refuses_tuple hA htest hF hsorting
    cases hsplit' : Split.semisimple (s.tuple A) (s.tuple A).diagonalEigenvalues (s.tuple forcing)
        test with
    | ok h' =>
      rw [hsplit'] at hsorting'
      exact absurd hrefuses hsorting'.not_refuses
    | error e'' => exact .inr ⟨e, e'', rfl, rfl⟩

end Symmetry

end LieNormalForm
