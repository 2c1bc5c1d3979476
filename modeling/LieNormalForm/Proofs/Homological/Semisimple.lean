import LieNormalForm.Proofs.Homological.Split
import LieNormalForm.Homological.Semisimple

/-!
# The solution for diagonal linear parts

Sorting a term adds it to the total of the two halves, where the generator half counts with the
gaps of the linear part. So the halves of a component solve its equation.
-/

noncomputable section

open MvPolynomial

namespace LieNormalForm

namespace Split

section Sorting

variable {C W : Type} [Coefficient C W] {eigenvalues : List C} {test : ZeroTest C} {n k : ℕ}

/-- The halves hold canonical polynomials with terms that belong there. -/
structure Halves.Sound (n k : ℕ) (eigenvalues : List C) (test : ZeroTest C) (s : Halves C) :
    Prop where
  remainder : s.remainder.Canonical n
  generator : s.generator.Canonical n
  resonant : ∀ t ∈ s.remainder.terms, classify k t.1 eigenvalues test = .ok .resonant
  eliminable : ∀ t ∈ s.generator.terms, ∃ d, classify k t.1 eigenvalues test = .ok (.eliminable d)

theorem Halves.Sound.zero (n k : ℕ) (eigenvalues : List C) (test : ZeroTest C) :
    (⟨Poly.zero n, Poly.zero n⟩ : Halves C).Sound n k eigenvalues test :=
  ⟨.zero n, .zero n, (fun t ht => by cases ht), fun t ht => by cases ht⟩

theorem sortTerm_sound {s s' : Halves C} {t : Term C} (ht : t.1.length = n)
    (h : sortTerm eigenvalues test k s t = .ok s') (hs : s.Sound n k eigenvalues test) :
    s'.Sound n k eigenvalues test := by
  unfold sortTerm at h
  split at h
  · cases h
  · rename_i hclass
    cases h
    exact ⟨hs.remainder.addTerm ht _, hs.generator,
      Poly.forall_addTerm (P := fun m => classify k m eigenvalues test = .ok .resonant) hclass
        hs.resonant _, hs.eliminable⟩
  · rename_i d hclass
    cases h
    exact ⟨hs.remainder, hs.generator.addTerm ht _, hs.resonant,
      Poly.forall_addTerm (P := fun m => ∃ d, classify k m eigenvalues test = .ok (.eliminable d))
        ⟨d, hclass⟩ hs.eliminable _⟩

end Sorting

variable {C W : Type} [Weight W] [ExactField C W] {A : Tuple C} {test : ZeroTest C} {n k : ℕ}

/-- What the halves of component `k` make up in front of a monomial. -/
def Halves.total (A : Sequence C) (k : ℕ) (s : Halves C) (r : ℕ →₀ ℕ) : C :=
  gap A k r * coeff r s.generator.value + coeff r s.remainder.value

theorem sortTerm_total (hA : A.Shaped n n) (hk : k < n) {s s' : Halves C} {t : Term C}
    (ht : t.1.length = n) (h : sortTerm A.diagonalEigenvalues test k s t = .ok s')
    (r : ℕ →₀ ℕ) :
    s'.total A.value k r = s.total A.value k r + coeff r (termValue t) := by
  unfold sortTerm at h
  split at h
  · cases h
  · cases h
    rw [Halves.total, Halves.total, Poly.value_addTerm, coeff_add, termValue]
    ring
  · rename_i d hclass
    cases h
    obtain ⟨rfl, hne⟩ := classify_eliminable_gap hA hk ht hclass
    rw [Halves.total, Halves.total, Poly.value_addTerm, coeff_add, termValue, coeff_monomial,
      coeff_monomial]
    split
    · rename_i hr
      rw [← hr, mul_add, mul_div_cancel₀ _ hne]
      ring
    · ring

theorem sortTerms_sound (hA : A.Shaped n n) (hk : k < n) {s s' : Halves C} {ts : List (Term C)}
    (hts : ∀ t ∈ ts, t.1.length = n) (h : sortTerms A.diagonalEigenvalues test k s ts = .ok s')
    (hs : s.Sound n k A.diagonalEigenvalues test) :
    s'.Sound n k A.diagonalEigenvalues test ∧
      ∀ r, s'.total A.value k r = s.total A.value k r + coeff r (termsValue ts) := by
  induction ts generalizing s with
  | nil =>
    cases h
    exact ⟨hs, fun r => by rw [termsValue_nil, coeff_zero, add_zero]⟩
  | cons t ts ih =>
    obtain ⟨ht, hts⟩ := List.forall_mem_cons.1 hts
    simp only [sortTerms] at h
    split at h
    · cases h
    · rename_i s₁ hterm
      obtain ⟨hsound, htotal⟩ := ih hts h (sortTerm_sound ht hterm hs)
      refine ⟨hsound, fun r => ?_⟩
      rw [htotal, sortTerm_total hA hk ht hterm, termsValue_cons, coeff_add, add_assoc]

theorem sortComponents_sound (hA : A.Shaped n n) {forcing : Tuple C} (hF : forcing.Shaped n n)
    {halves : List (Halves C)}
    (h : sortComponents n A.diagonalEigenvalues test 0 forcing.components = .ok halves) (k : ℕ) :
    (halves.getD k ⟨.zero n, .zero n⟩).Sound n k A.diagonalEigenvalues test ∧
      ∀ r, (halves.getD k ⟨.zero n, .zero n⟩).total A.value k r = coeff r (forcing.value k) := by
  have hlength : halves.length = n := (sortComponents_length h).trans hF.length_eq
  rw [List.getD_eq_getElem?_getD]
  cases hk : halves[k]? with
  | none =>
    have hle : n ≤ k := hlength ▸ List.getElem?_eq_none_iff.1 hk
    refine ⟨.zero n k _ test, fun r => ?_⟩
    rw [Tuple.value_of_size_le (hF.size_eq ▸ hle), Option.getD_none, Halves.total,
      Poly.value_zero, coeff_zero, mul_zero, zero_add]
  | some half =>
    obtain ⟨p, hp, hsort⟩ := sortComponents_getElem? h hk
    have hlt : k < n := hlength ▸ (List.getElem?_eq_some_iff.1 hk).1
    have hcanonical := hF.canonical p (List.mem_of_getElem? hp)
    rw [Nat.zero_add] at hsort
    obtain ⟨hsound, htotal⟩ := sortTerms_sound hA hlt hcanonical.terms.length hsort
      (.zero n k _ test)
    refine ⟨hsound, fun r => ?_⟩
    rw [Option.getD_some, htotal, Halves.total, Poly.value_zero, coeff_zero, mul_zero, zero_add,
      zero_add, Tuple.value_eq, Tuple.component, List.getD_eq_getElem?_getD, hp]
    rfl

theorem shaped_of_halves {C W : Type} [Coefficient C W] {n : ℕ} {halves : List (Halves C)}
    {half : Halves C → Poly C} (hlength : halves.length = n)
    (h : ∀ k, (half (halves.getD k ⟨.zero n, .zero n⟩)).Canonical n) :
    (⟨n, halves.map half⟩ : Tuple C).Shaped n n := by
  refine ⟨by rw [Tuple.size, List.length_map, hlength], rfl, fun p hp => ?_⟩
  obtain ⟨s, hmem, rfl⟩ := List.mem_map.1 hp
  obtain ⟨k, hk⟩ := List.mem_iff_getElem?.1 hmem
  have hcanonical := h k
  rwa [List.getD_eq_getElem?_getD, hk] at hcanonical

theorem component_of_halves {C : Type} {n : ℕ} (halves : List (Halves C)) (f : Halves C → Poly C)
    (hzero : f ⟨.zero n, .zero n⟩ = .zero n) (k : ℕ) :
    (⟨n, halves.map f⟩ : Tuple C).component k = f (halves.getD k ⟨.zero n, .zero n⟩) := by
  have h := List.getD_map (l := halves) (n := k) (d := ⟨.zero n, .zero n⟩) f
  rwa [hzero] at h

/-- Sorting terms solves the equation for a diagonal linear part. -/
theorem semisimple_solves (hA : A.Shaped n n) (hdiagonal : Diagonal A.value) {forcing : Tuple C}
    (hF : forcing.Shaped n n) {s : Split C}
    (h : semisimple A A.diagonalEigenvalues forcing test = .ok s) :
    s.Solves A A.diagonalEigenvalues forcing test := by
  unfold semisimple at h
  rw [hF.nvars_eq] at h
  split at h
  · cases h
  · split at h
    · cases h
    · rename_i halves hhalves
      cases h
      have hsound := sortComponents_sound hA hF hhalves
      have hlength : halves.length = n := (sortComponents_length hhalves).trans hF.length_eq
      have hG := component_of_halves (n := n) halves Halves.remainder rfl
      have hY := component_of_halves (n := n) halves Halves.generator rfl
      have hremainder := shaped_of_halves hlength fun k => (hsound k).1.remainder
      have hgenerator := shaped_of_halves hlength fun k => (hsound k).1.generator
      refine .of_value hA hF hremainder hgenerator ?_ (fun k => ?_) fun k => ?_
      · funext k
        ext r
        rw [Pi.add_apply, coeff_add, hdiagonal.coeff_bracket
          (fun k j => Tuple.lt_of_mem_vars_value hA)
          (fun k hk => Tuple.value_of_size_le (by rwa [hgenerator.size_eq])),
          Tuple.value_eq, Tuple.value_eq, hG, hY]
        exact (hsound k).2 r
      · rw [hG]
        exact (hsound k).1.resonant
      · rw [hY]
        exact (hsound k).1.eliminable

end Split

end LieNormalForm

end
