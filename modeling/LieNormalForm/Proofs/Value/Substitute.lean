import LieNormalForm.Proofs.Value.Poly

/-!
# Products and substitution without high degrees

`cut` drops the terms of a polynomial above a limit on the degree. A product within a limit is
the product cut, and so are powers and whole substitutions: what is dropped on the way only
meets terms of higher degree.
-/

open MvPolynomial (monomial coeff)

noncomputable section

namespace LieNormalForm

open Monomial (exponents)

variable {C W : Type} [Weight W] [ExactField C W]

/-- The terms of degree within a limit. -/
def cut : Option ℕ → MvPolynomial ℕ C →ₗ[C] MvPolynomial ℕ C
  | none => LinearMap.id
  | some d => ∑ k ∈ Finset.range (d + 1), MvPolynomial.homogeneousComponent k

theorem cut_some (d : ℕ) (a : MvPolynomial ℕ C) :
    cut (some d) a = ∑ k ∈ Finset.range (d + 1), MvPolynomial.homogeneousComponent k a := by
  rw [cut, LinearMap.sum_apply]

theorem coeff_cut (limit : Option ℕ) (a : MvPolynomial ℕ C) (s : ℕ →₀ ℕ) :
    coeff s (cut limit a) = if Poly.within limit s.degree then coeff s a else 0 := by
  cases limit with
  | none => rfl
  | some d =>
    rw [cut_some, MvPolynomial.coeff_sum]
    simp only [MvPolynomial.coeff_homogeneousComponent]
    rw [Finset.sum_ite_eq]
    simp [Poly.within]

theorem within_of_le {limit : Option ℕ} {d e : ℕ} (h : d ≤ e) (he : Poly.within limit e = true) :
    Poly.within limit d = true := by
  cases limit with
  | none => rfl
  | some l =>
    simp only [Poly.within, decide_eq_true_eq] at he ⊢
    omega

theorem cut_monomial (limit : Option ℕ) (s : ℕ →₀ ℕ) (c : C) :
    cut limit (monomial s c) = if Poly.within limit s.degree then monomial s c else 0 := by
  ext u
  rw [coeff_cut, MvPolynomial.coeff_monomial]
  by_cases hsu : s = u
  · subst hsu
    by_cases hs : Poly.within limit s.degree = true <;> simp [hs]
  · by_cases hs : Poly.within limit s.degree = true <;> simp [hs, hsu]

theorem cut_C (limit : Option ℕ) (c : C) :
    cut limit (MvPolynomial.C c) = (MvPolynomial.C c : MvPolynomial ℕ C) := by
  rw [MvPolynomial.C_apply, cut_monomial, if_pos]
  cases limit <;> simp [Poly.within]

theorem cut_cut (limit : Option ℕ) (a : MvPolynomial ℕ C) : cut limit (cut limit a) = cut limit a := by
  ext s
  by_cases hs : Poly.within limit s.degree = true <;> simp [coeff_cut, hs]

/-- What is cut from one factor only meets terms that are cut from the product. -/
theorem cut_cut_mul (limit : Option ℕ) (a b : MvPolynomial ℕ C) :
    cut limit (cut limit a * b) = cut limit (a * b) := by
  ext s
  rw [coeff_cut, coeff_cut]
  split
  · rename_i hs
    rw [MvPolynomial.coeff_mul, MvPolynomial.coeff_mul]
    refine Finset.sum_congr rfl fun x hx => ?_
    have hsum : x.1 + x.2 = s := Finset.HasAntidiagonal.mem_antidiagonal.1 hx
    have hle : x.1.degree ≤ s.degree := by
      rw [← hsum, map_add]
      exact Nat.le_add_right _ _
    rw [coeff_cut, if_pos (within_of_le hle hs)]
  · rfl

theorem cut_mul_cut (limit : Option ℕ) (a b : MvPolynomial ℕ C) :
    cut limit (a * cut limit b) = cut limit (a * b) := by
  rw [mul_comm, cut_cut_mul, mul_comm]

namespace Poly

variable {n : ℕ} {p q : Poly C}

theorem value_truncate (p : Poly C) (d : ℕ) : (p.truncate d).value = cut (some d) p.value := by
  refine value_filterTerms_eq p fun t _ => ?_
  rw [termValue, cut_monomial, Monomial.degree_exponents]
  rfl

theorem termsValue_row {x : Term C} (limit : Option ℕ) {ys : List (Term C)}
    (hx : ∀ y ∈ ys, x.1.length = y.1.length) :
    termsValue (row x limit ys) = cut limit (termValue x * termsValue ys) := by
  induction ys with
  | nil => rw [termsValue_nil, mul_zero, map_zero]; rfl
  | cons y ys ih =>
    obtain ⟨hy, hys⟩ := List.forall_mem_cons.1 hx
    have hmul : termValue x * termValue y = monomial (exponents (x.1.product y.1)) (x.2 * y.2) := by
      rw [termValue, termValue, MvPolynomial.monomial_mul, Monomial.exponents_product hy]
    rw [termsValue_cons, mul_add, map_add, ← ih hys, hmul, cut_monomial,
      Monomial.degree_exponents, Monomial.degree_product hy, row, List.filter_cons]
    split
    · rw [List.map_cons, termsValue_cons]
      rfl
    · rw [zero_add]
      rfl

theorem value_mulWithin (hp : p.Canonical n) (hq : q.Canonical n) (limit : Option ℕ) :
    (p.mulWithin q limit).value = cut limit (p.value * q.value) := by
  have hrows : ∀ (xs acc : List (Term C)), (∀ x ∈ xs, x.1.length = n) →
      termsValue (xs.foldl (fun acc x => mergeTerms acc (row x limit q.terms)) acc) =
        termsValue acc + cut limit (termsValue xs * q.value) := by
    intro xs
    induction xs with
    | nil => intro acc _; rw [termsValue_nil, zero_mul, map_zero, add_zero]; rfl
    | cons x xs ih =>
      intro acc hxs
      obtain ⟨hx, hxs⟩ := List.forall_mem_cons.1 hxs
      have hrow := termsValue_row (x := x) limit fun y hy => hx.trans (hq.terms.length y hy).symm
      rw [List.foldl_cons, ih _ hxs, termsValue_mergeTerms, hrow, termsValue_cons, add_mul, map_add,
        add_assoc]
      rfl
  rw [value, mulWithin_terms, hrows _ _ hp.terms.length, termsValue_nil, zero_add]
  rfl

theorem value_mul (hp : p.Canonical n) (hq : q.Canonical n) :
    (p * q).value = p.value * q.value := value_mulWithin hp hq none

theorem value_powLoop {budget e : ℕ} {result base : Poly C} (hresult : result.Canonical n)
    (hbase : base.Canonical n) (he : e ≤ budget) :
    (powLoop budget e result base).value = result.value * base.value ^ e := by
  induction budget generalizing e result base with
  | zero =>
    obtain rfl := Nat.le_zero.1 he
    rw [pow_zero, mul_one]
    rfl
  | succ budget ih =>
    rw [powLoop]
    by_cases hzero : e = 0
    · rw [if_pos hzero, hzero, pow_zero, mul_one]
    rw [if_neg hzero]
    -- the lowest binary digit of the exponent decides whether the base is a factor
    have hnext : (if e % 2 = 1 then result * base else result).Canonical n ∧
        (if e % 2 = 1 then result * base else result).value =
          result.value * base.value ^ (e % 2) := by
      rcases Nat.mod_two_eq_zero_or_one e with hmod | hmod
      · rw [hmod, if_neg (by decide), pow_zero, mul_one]
        exact ⟨hresult, rfl⟩
      · rw [hmod, if_pos rfl, pow_one, value_mul hresult hbase]
        exact ⟨hresult.mul hbase, rfl⟩
    obtain ⟨hcanonical, hvalue⟩ := hnext
    dsimp only
    by_cases hhalf : e / 2 = 0
    · rw [if_pos hhalf, hvalue, Nat.mod_eq_of_lt (by omega)]
    · rw [if_neg hhalf, ih (e := e / 2) hcanonical (hbase.mul hbase) (by omega), hvalue,
        value_mul hbase hbase, mul_assoc, ← pow_two, ← pow_mul, ← pow_add, Nat.mod_add_div]

theorem value_pow (hp : p.Canonical n) (e : ℕ) : (p.pow e).value = p.value ^ e := by
  rw [pow, value_powLoop (n := n) ?_ hp le_rfl, value_constant, map_one, one_mul]
  rw [hp.nvars_eq]
  exact .constant n 1

theorem value_powerWithin (h : p.Canonical n) (limit : Option ℕ) (e : ℕ) :
    (p.powerWithin limit e).value = cut limit (p.value ^ e) := by
  induction e with
  | zero => rw [powerWithin, value_constant, pow_zero, ← MvPolynomial.C_1, cut_C]
  | succ e ih =>
    rw [powerWithin, value_mulWithin (h.powerWithin limit e) h, ih, cut_cut_mul, pow_succ]

/-- The powers of the images that a list of exponents asks for. -/
def imagesPower (m : Monomial) (images : List (Poly C)) : MvPolynomial ℕ C :=
  ((List.zip m images).map fun eg => eg.2.value ^ eg.1).prod

theorem value_timesPowers (h : p.Canonical n) (limit : Option ℕ) (m : Monomial)
    {images : List (Poly C)} (hi : ∀ g ∈ images, g.Canonical n) (hcut : cut limit p.value = p.value) :
    (p.timesPowers limit m images).value = cut limit (p.value * imagesPower m images) := by
  unfold timesPowers imagesPower
  have hzip : ∀ eg ∈ List.zip m images, eg.2.Canonical n :=
    fun eg heg => hi _ (List.of_mem_zip heg).2
  revert hzip
  generalize List.zip m images = egs
  intro hzip
  induction egs generalizing p with
  | nil => rw [List.map_nil, List.prod_nil, mul_one, hcut]; rfl
  | cons eg egs ih =>
    obtain ⟨heg, hegs⟩ := List.forall_mem_cons.1 hzip
    rw [List.foldl_cons, List.map_cons, List.prod_cons]
    split
    · rename_i he
      rw [ih h hcut hegs, he, pow_zero, one_mul]
    · have hpow := heg.powerWithin limit eg.1
      have hvalue : (p.mulWithin (eg.2.powerWithin limit eg.1) limit).value =
          cut limit (p.value * eg.2.value ^ eg.1) := by
        rw [value_mulWithin h hpow, value_powerWithin heg, cut_mul_cut]
      have hcut' : cut limit (p.mulWithin (eg.2.powerWithin limit eg.1) limit).value =
          (p.mulWithin (eg.2.powerWithin limit eg.1) limit).value := by
        rw [hvalue, cut_cut]
      rw [ih (h.mulWithin hpow limit) hcut' hegs, hvalue, cut_cut_mul, mul_assoc]

/-- The values of the images, zero for variables beyond the last. -/
def imageValues (images : List (Poly C)) (k : ℕ) : MvPolynomial ℕ C :=
  (images.map value).getD k 0

theorem prod_range_imageValues {m : Monomial} {images : List (Poly C)}
    (h : m.length = images.length) :
    ∏ k ∈ Finset.range m.length, imageValues images k ^ m.exponent k = imagesPower m images := by
  induction m generalizing images with
  | nil => rfl
  | cons e m ih =>
    obtain ⟨g, images, rfl⟩ := List.exists_cons_of_length_eq_add_one h.symm
    rw [List.length_cons, Finset.prod_range_succ', imagesPower, List.zip_cons_cons, List.map_cons,
      List.prod_cons, mul_comm]
    exact congrArg (g.value ^ e * ·) (ih (Nat.succ.inj h))

theorem aeval_termValue {images : List (Poly C)} {t : Term C} (h : t.1.length = images.length) :
    MvPolynomial.aeval (imageValues images) (termValue t) =
      MvPolynomial.C t.2 * imagesPower t.1 images := by
  rw [termValue, MvPolynomial.aeval_monomial, MvPolynomial.algebraMap_eq,
    ← prod_range_imageValues h]
  congr 1
  exact Finsupp.prod_of_support_subset _ (List.toFinsupp_support_subset _) _
    fun _ _ => pow_zero _

/-- Substitution within a limit is evaluation at the images, cut at the limit. -/
theorem value_foldl_timesPowers (limit : Option ℕ) {images : List (Poly C)} {ts : List (Term C)}
    (hi : ∀ g ∈ images, g.Canonical n) (hl : ∀ t ∈ ts, t.1.length = images.length)
    (out : Poly C) :
    (ts.foldl (fun out t => out + (constant n t.2).timesPowers limit t.1 images) out).value =
      out.value + cut limit (MvPolynomial.aeval (imageValues images) (termsValue ts)) := by
  induction ts generalizing out with
  | nil => rw [termsValue_nil, map_zero, map_zero, add_zero]; rfl
  | cons t ts ih =>
    obtain ⟨ht, hts⟩ := List.forall_mem_cons.1 hl
    have hconst : cut limit (constant n t.2).value = (constant n t.2).value := by
      rw [value_constant, cut_C]
    rw [List.foldl_cons, ih hts, value_add, value_timesPowers (.constant n t.2) limit t.1 hi hconst,
      value_constant, termsValue_cons, map_add, map_add, aeval_termValue ht, add_assoc]

theorem substituteWithin_value {images : List (Poly C)} (hp : p.Canonical images.length)
    (hi : ∀ g ∈ images, g.Canonical n) (hn : images = [] → n = 0) (limit : Option ℕ) :
    ∃ q, p.substituteWithin images limit = .ok q ∧ q.Canonical n ∧
      q.value = cut limit (MvPolynomial.aeval (imageValues images) p.value) := by
  have hhead : (images.head?.map nvars).getD 0 = n := by
    cases images with
    | nil => exact (hn rfl).symm
    | cons g images => exact (hi g (List.mem_cons_self ..)).nvars_eq
  refine ⟨_, substituteWithin_eq hp.nvars_eq.symm hhead fun g hg => (hi g hg).nvars_eq, ?_, ?_⟩
  · exact .foldl_timesPowers limit hi _ (.zero n)
  · rw [value_foldl_timesPowers limit hi hp.terms.length, value_zero, zero_add]
    rfl

end Poly

end LieNormalForm

end
