import LieNormalForm.Proofs.Value.Evaluation

/-!
# The polynomial ring

Over a field the canonical polynomials in `n` variables are the polynomials in `n` variables: each
stands for one of them, none is left out, and the operations are those of the ring. So they add and
convolve their coefficients, evaluation commutes with them, and two of them are the same list of
terms if and only if their coefficients agree. Over an infinite field it is enough that their values
agree at every point.
-/

open MvPolynomial (coeff)

noncomputable section

namespace LieNormalForm

namespace Monomial

variable {n : ℕ}

/-- The exponents of `n` variables as a list. -/
def ofExponents (s : Fin n →₀ ℕ) : Monomial := List.ofFn s

theorem ofExponents_length (s : Fin n →₀ ℕ) : (ofExponents s).length = n := List.length_ofFn

theorem exponents_ofExponents (s : Fin n →₀ ℕ) :
    exponents (ofExponents s) = s.embDomain Fin.valEmbedding := by
  ext k
  rw [exponents_apply, exponent, ofExponents]
  by_cases hk : k < n
  · have hemb := Finsupp.embDomain_apply_self Fin.valEmbedding s ⟨k, hk⟩
    simpa [hk] using hemb.symm
  · rw [Finsupp.embDomain_of_notMem_range, List.getD_eq_default]
    · simpa using hk
    · rintro ⟨j, rfl⟩
      exact hk j.isLt

end Monomial

variable {C W : Type} [Weight W] [ExactField C W] {n : ℕ}

/-- The coefficients of a product, from the coefficients of its factors. -/
def convolution (u v : (Fin n →₀ ℕ) → C) (s : Fin n →₀ ℕ) : C :=
  ∑ x ∈ Finset.HasAntidiagonal.antidiagonal s, u x.1 * v x.2

namespace Poly

variable {p q : Poly C}

/-- The coefficients of a polynomial in `n` variables. -/
def coefficients (n : ℕ) (p : Poly C) (s : Fin n →₀ ℕ) : C := p.coefficient (.ofExponents s)

/-- The polynomial in `n` variables; what has further variables is left out. -/
def polynomial (n : ℕ) (p : Poly C) : MvPolynomial (Fin n) C :=
  MvPolynomial.killCompl Fin.val_injective p.value

theorem rename_polynomial (h : p.Canonical n) :
    MvPolynomial.rename Fin.val (p.polynomial n) = p.value := by
  obtain ⟨v, hv⟩ := MvPolynomial.exists_rename_eq_of_vars_subset_range p.value Fin.val
    Fin.val_injective fun k hk => ⟨⟨k, lt_of_mem_vars_value h hk⟩, rfl⟩
  rw [polynomial, ← hv, MvPolynomial.killCompl_rename_app]

theorem polynomial_injective (hp : p.Canonical n) (hq : q.Canonical n)
    (h : p.polynomial n = q.polynomial n) : p = q := by
  refine value_injective hp hq ?_
  rw [← rename_polynomial hp, h, rename_polynomial hq]

theorem coefficients_eq (h : p.Canonical n) (s : Fin n →₀ ℕ) :
    p.coefficients n s = coeff s (p.polynomial n) := by
  have hcoeff := MvPolynomial.coeff_rename_embDomain Fin.valEmbedding (p.polynomial n) s
  rw [← Monomial.exponents_ofExponents] at hcoeff
  rw [coefficients, ← coeff_value h (Monomial.ofExponents_length s), ← hcoeff]
  exact congrArg _ (rename_polynomial h).symm

theorem evaluate_eq_eval_polynomial (h : p.Canonical n) (a : List C) :
    p.evaluate a = MvPolynomial.eval (fun k : Fin n => pointAt a k) (p.polynomial n) := by
  rw [evaluate_eq_eval, ← rename_polynomial h, MvPolynomial.eval_rename]
  rfl

theorem polynomial_constant (n : ℕ) (c : C) :
    (constant n c).polynomial n = MvPolynomial.C c := by
  rw [polynomial, value_constant, MvPolynomial.killCompl_C]

theorem polynomial_coordinate (k : Fin n) :
    (coordinate n k : Poly C).polynomial n = MvPolynomial.X k := by
  rw [polynomial, value_coordinate k.isLt, ← MvPolynomial.rename_X Fin.val,
    MvPolynomial.killCompl_rename_app]

theorem polynomial_add (n : ℕ) (p q : Poly C) :
    (p + q).polynomial n = p.polynomial n + q.polynomial n := by
  rw [polynomial, value_add, map_add]
  rfl

theorem polynomial_sub (n : ℕ) (p q : Poly C) :
    (p - q).polynomial n = p.polynomial n - q.polynomial n := by
  rw [polynomial, value_sub, map_sub]
  rfl

theorem polynomial_neg (n : ℕ) (p : Poly C) : (-p).polynomial n = -p.polynomial n := by
  rw [polynomial, value_neg, map_neg]
  rfl

theorem polynomial_scale (n : ℕ) (p : Poly C) (c : C) :
    (p.scale c).polynomial n = c • p.polynomial n := by
  rw [polynomial, value_scale, map_smul]
  rfl

theorem polynomial_mul (hp : p.Canonical n) (hq : q.Canonical n) :
    (p * q).polynomial n = p.polynomial n * q.polynomial n := by
  rw [polynomial, value_mul hp hq, map_mul]
  rfl

theorem polynomial_pow (hp : p.Canonical n) (e : ℕ) :
    (p.pow e).polynomial n = p.polynomial n ^ e := by
  rw [polynomial, value_pow hp, map_pow]
  rfl

theorem exists_polynomial_eq (v : MvPolynomial (Fin n) C) :
    ∃ p : Poly C, p.Canonical n ∧ p.polynomial n = v := by
  induction v using MvPolynomial.induction_on with
  | C c => exact ⟨constant n c, .constant n c, polynomial_constant n c⟩
  | add v w hv hw =>
    obtain ⟨p, hp, rfl⟩ := hv
    obtain ⟨q, hq, rfl⟩ := hw
    exact ⟨p + q, hp.add hq, polynomial_add n p q⟩
  | mul_X v k hv =>
    obtain ⟨p, hp, rfl⟩ := hv
    refine ⟨p * coordinate n k, hp.mul (.coordinate n k), ?_⟩
    rw [polynomial_mul hp (.coordinate n k), polynomial_coordinate]

theorem coefficients_constant (n : ℕ) (c : C) :
    (constant n c).coefficients n = Pi.single 0 c := by
  ext s
  rw [coefficients_eq (.constant n c), polynomial_constant, MvPolynomial.coeff_C, Pi.single_apply]
  exact if_congr eq_comm rfl rfl

theorem coefficients_mul (hp : p.Canonical n) (hq : q.Canonical n) :
    (p * q).coefficients n = convolution (p.coefficients n) (q.coefficients n) := by
  ext s
  rw [coefficients_eq (hp.mul hq), polynomial_mul hp hq, MvPolynomial.coeff_mul]
  refine Finset.sum_congr rfl fun x _ => ?_
  rw [coefficients_eq hp, coefficients_eq hq]

theorem iterate_mul (hp : p.Canonical n) (e : ℕ) :
    ((fun r => r * p)^[e] (constant n 1)).Canonical n ∧
      ((fun r => r * p)^[e] (constant n 1)).polynomial n = p.polynomial n ^ e := by
  induction e with
  | zero => exact ⟨.constant n 1, by simp [polynomial_constant]⟩
  | succ e ih =>
    obtain ⟨hcanonical, hpolynomial⟩ := ih
    rw [Function.iterate_succ_apply']
    exact ⟨hcanonical.mul hp, by rw [polynomial_mul hcanonical hp, hpolynomial, pow_succ]⟩

theorem pow_eq_iterate (hp : p.Canonical n) (e : ℕ) :
    p.pow e = (fun r => r * p)^[e] (constant n 1) := by
  obtain ⟨hcanonical, hpolynomial⟩ := iterate_mul hp e
  refine polynomial_injective (hp.pow e) hcanonical ?_
  rw [polynomial_pow hp, hpolynomial]

theorem coefficients_pow (hp : p.Canonical n) (e : ℕ) :
    (p.pow e).coefficients n =
      (fun u => convolution u (p.coefficients n))^[e] (Pi.single 0 1) := by
  rw [pow_eq_iterate hp]
  induction e with
  | zero => exact coefficients_constant n 1
  | succ e ih =>
    rw [Function.iterate_succ_apply', Function.iterate_succ_apply', ← ih]
    exact coefficients_mul (iterate_mul hp e).1 hp

theorem eq_iff_coefficients (hp : p.Canonical n) (hq : q.Canonical n) :
    p = q ↔ p.coefficients n = q.coefficients n := by
  constructor
  · rintro rfl
    rfl
  · intro h
    refine polynomial_injective hp hq (MvPolynomial.ext _ _ fun s => ?_)
    rw [← coefficients_eq hp, ← coefficients_eq hq, h]

theorem eq_iff_evaluate [Infinite C] (hp : p.Canonical n) (hq : q.Canonical n) :
    p = q ↔ ∀ a : List C, a.length = n → p.evaluate a = q.evaluate a := by
  constructor
  · rintro rfl a _
    rfl
  · intro h
    refine polynomial_injective hp hq (MvPolynomial.funext fun x => ?_)
    -- the list of the coordinates of `x` is a point of full length
    have hpoint : (fun k : Fin n => pointAt (List.ofFn x) k) = x := by
      ext k
      rw [pointAt, List.getD_eq_getElem _ _ (by simp), List.getElem_ofFn]
    have hvalues := h (List.ofFn x) List.length_ofFn
    rwa [evaluate_eq_eval_polynomial hp, evaluate_eq_eval_polynomial hq, hpoint] at hvalues

theorem beq_iff_eq_of_lawful [BEq C] [LawfulBEq C] (p q : Poly C) : (p == q) = true ↔ p = q := by
  obtain ⟨m, ts⟩ := p
  obtain ⟨k, us⟩ := q
  change (m == k && ts == us) = true ↔ _
  simp

/-- The operations on canonical polynomials, as operations on their coefficients. -/
structure ActsOnCoefficients (n : ℕ) (p q : Poly C) (c : C) (e : ℕ) : Prop where
  constant : (constant n c).coefficients n = Pi.single 0 c
  add : (p + q).coefficients n = p.coefficients n + q.coefficients n
  sub : (p - q).coefficients n = p.coefficients n - q.coefficients n
  neg : (-p).coefficients n = -p.coefficients n
  scale : (p.scale c).coefficients n = c • p.coefficients n
  mul : (p * q).coefficients n = convolution (p.coefficients n) (q.coefficients n)
  pow : (p.pow e).coefficients n =
    (fun u => convolution u (p.coefficients n))^[e] (Pi.single 0 1)

/-- The operations on canonical polynomials, as operations on their values at a point. -/
structure ActsOnValues (a : List C) (p q : Poly C) (c : C) (e : ℕ) : Prop where
  constant : (constant a.length c).evaluate a = c
  add : (p + q).evaluate a = p.evaluate a + q.evaluate a
  sub : (p - q).evaluate a = p.evaluate a - q.evaluate a
  neg : (-p).evaluate a = -p.evaluate a
  scale : (p.scale c).evaluate a = c * p.evaluate a
  mul : (p * q).evaluate a = p.evaluate a * q.evaluate a
  pow : (p.pow e).evaluate a = p.evaluate a ^ e

theorem actsOnCoefficients (hp : p.Canonical n) (hq : q.Canonical n) (c : C) (e : ℕ) :
    ActsOnCoefficients n p q c e where
  constant := coefficients_constant n c
  add := by
    ext s
    rw [coefficients_eq (hp.add hq), polynomial_add, MvPolynomial.coeff_add, Pi.add_apply,
      coefficients_eq hp, coefficients_eq hq]
  sub := by
    ext s
    rw [coefficients_eq (hp.sub hq), polynomial_sub, MvPolynomial.coeff_sub, Pi.sub_apply,
      coefficients_eq hp, coefficients_eq hq]
  neg := by
    ext s
    rw [coefficients_eq hp.neg, polynomial_neg, MvPolynomial.coeff_neg, Pi.neg_apply,
      coefficients_eq hp]
  scale := by
    ext s
    rw [coefficients_eq (hp.scale c), polynomial_scale, MvPolynomial.coeff_smul, Pi.smul_apply,
      coefficients_eq hp]
  mul := coefficients_mul hp hq
  pow := coefficients_pow hp e

theorem actsOnValues (hp : p.Canonical n) (hq : q.Canonical n) (c : C) (e : ℕ) (a : List C) :
    ActsOnValues a p q c e where
  constant := evaluate_constant _ c a
  add := evaluate_add p q a
  sub := evaluate_sub p q a
  neg := evaluate_neg p a
  scale := evaluate_scale p c a
  mul := evaluate_mul hp hq a
  pow := evaluate_pow hp e a

end Poly

end LieNormalForm

end
