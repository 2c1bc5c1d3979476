import LieNormalForm.Proofs.Exact
import LieNormalForm.Proofs.Canonical.Poly

/-!
# The polynomial that a list of terms stands for

`Poly.value` is the polynomial over a field that the terms add up to, in variables counted by
natural numbers. The operations on terms are the operations on values, and a polynomial in
canonical form is known by its value.
-/

open MvPolynomial (monomial coeff)

noncomputable section

namespace LieNormalForm

namespace Monomial

/-- The exponents as a function of the variable. -/
def exponents (m : Monomial) : ℕ →₀ ℕ := List.toFinsupp m

theorem exponents_apply (m : Monomial) (k : ℕ) : exponents m k = m.exponent k := rfl

theorem exponents_injective {m k : Monomial} (hlen : m.length = k.length)
    (h : exponents m = exponents k) : m = k := by
  refine List.ext_getElem hlen fun j hm hk => ?_
  have hj := DFunLike.congr_fun h j
  rw [exponents, exponents, List.toFinsupp_apply_lt _ _ hm, List.toFinsupp_apply_lt _ _ hk] at hj
  exact hj

theorem exponents_one (n : ℕ) : exponents (one n) = 0 := by
  ext j
  rw [exponents_apply, exponent, one, List.getD_eq_getElem?_getD, List.getElem?_replicate]
  split <;> rfl

theorem exponents_coordinate {n k : ℕ} (hk : k < n) :
    exponents (coordinate n k) = Finsupp.single k 1 := by
  ext j
  rw [exponents_apply, exponent, coordinate, List.getD_eq_getElem?_getD, List.getElem?_map]
  rcases Nat.lt_or_ge j n with hj | hj
  · rw [List.getElem?_range hj, Finsupp.single_apply]
    simp [eq_comm]
  · rw [List.getElem?_eq_none (by simpa using hj), Finsupp.single_apply, if_neg (by omega)]
    rfl

theorem exponents_product {m k : Monomial} (h : m.length = k.length) :
    exponents (product m k) = exponents m + exponents k := by
  ext j
  simp only [exponents_apply, exponent, product, Finsupp.coe_add, Pi.add_apply,
    List.getD_eq_getElem?_getD, List.getElem?_zipWith]
  rcases Nat.lt_or_ge j m.length with hj | hj
  · have hk : j < k.length := h ▸ hj
    simp [hj, hk]
  · have hk : k.length ≤ j := h ▸ hj
    simp [hj, hk]

theorem exponents_lower? {m m' : Monomial} {j : ℕ} (h : m.lower? j = some m') :
    exponents m' = exponents m - Finsupp.single j 1 := by
  unfold lower? at h
  split at h
  · cases h
  rename_i hj
  cases h
  ext k
  have hlen : j < m.length := by
    by_contra hle
    exact hj (List.getD_eq_default _ _ (by omega))
  simp only [exponents_apply, exponent, Finsupp.coe_tsub, Pi.sub_apply, Finsupp.single_apply,
    List.getD_eq_getElem?_getD, List.getElem?_set]
  by_cases hjk : j = k
  · subst hjk
    simp [hlen]
  · simp [hjk]

theorem degree_concat (m : Monomial) (a : ℕ) : degree (m ++ [a]) = degree m + a := by
  induction m with
  | nil => simp [degree]
  | cons b m ih =>
    rw [List.cons_append, degree_cons, degree_cons, ih]
    omega

theorem exponents_concat (m : Monomial) (a : ℕ) :
    exponents (m ++ [a]) = exponents m + Finsupp.single m.length a :=
  List.toFinsupp_concat_eq_toFinsupp_add_single ..

theorem degree_exponents (m : Monomial) : (exponents m).degree = degree m := by
  induction m using List.reverseRecOn with
  | nil => simp [exponents, degree]
  | append_singleton m a ih =>
    rw [exponents_concat, map_add, ih, degree_concat, Finsupp.degree_single]

end Monomial

open Monomial (exponents exponents_injective)

variable {C W : Type} [Weight W] [ExactField C W]

def termValue (t : Term C) : MvPolynomial ℕ C := monomial (exponents t.1) t.2

/-- What terms add up to. -/
def termsValue (ts : List (Term C)) : MvPolynomial ℕ C := (ts.map termValue).sum

theorem termsValue_nil : termsValue ([] : List (Term C)) = 0 := rfl

theorem termsValue_cons (t : Term C) (ts : List (Term C)) :
    termsValue (t :: ts) = termValue t + termsValue ts := by
  simp [termsValue]

theorem termValue_of_isZero {t : Term C} (h : Coefficient.isZero t.2 = true) : termValue t = 0 := by
  rw [termValue, (ExactField.isZero_iff _).1 h, map_zero]

theorem termValue_add_like {x y : Term C} (h : x.1 = y.1) :
    termValue (x.1, x.2 + y.2) = termValue x + termValue y := by
  rw [termValue, termValue, termValue, h, map_add]

theorem termsValue_nonzeroTerms (ts : List (Term C)) :
    termsValue (nonzeroTerms ts) = termsValue ts := by
  induction ts with
  | nil => rfl
  | cons t ts ih =>
    rw [nonzeroTerms, List.filter_cons, termsValue_cons, ← ih]
    split
    · rw [termsValue_cons]
      rfl
    · rename_i ht
      rw [termValue_of_isZero (by simpa using ht), zero_add]
      rfl

theorem termsValue_addLike {x y : Term C} (h : x.1 = y.1) (rest : List (Term C)) :
    termsValue (addLike x y rest) = termValue x + termValue y + termsValue rest := by
  unfold addLike
  split
  · rename_i hy
    rw [termsValue_cons, termValue_of_isZero hy, add_zero]
  · split
    · rename_i hsum
      rw [← termValue_add_like h, termValue_of_isZero hsum, zero_add]
    · rw [termsValue_cons, termValue_add_like h]

theorem termsValue_mergeHead {x : Term C} {xs : List (Term C)}
    {rest : List (Term C) → List (Term C)}
    (hrest : ∀ ys, termsValue (rest ys) = termsValue xs + termsValue ys) (ys : List (Term C)) :
    termsValue (mergeHead x xs rest ys) = termsValue (x :: xs) + termsValue ys := by
  induction ys with
  | nil => rw [mergeHead, termsValue_nil, add_zero]
  | cons y ys ih =>
    unfold mergeHead
    split
    · rw [termsValue_cons, hrest, termsValue_cons x]
      ring
    · rename_i heq
      rw [termsValue_addLike (Monomial.order_eq_iff.1 heq), hrest, termsValue_cons,
        termsValue_cons]
      ring
    · split
      · rename_i hy
        rw [ih, termsValue_cons y, termValue_of_isZero hy, zero_add]
      · rw [termsValue_cons, ih, termsValue_cons y]
        ring

theorem termsValue_mergeTerms (xs ys : List (Term C)) :
    termsValue (mergeTerms xs ys) = termsValue xs + termsValue ys := by
  induction xs generalizing ys with
  | nil => rw [mergeTerms, termsValue_nonzeroTerms, termsValue_nil, zero_add]
  | cons x xs ih => exact termsValue_mergeHead ih ys

theorem coeff_termsValue_of_above {n : ℕ} {m : Monomial} {ts : List (Term C)}
    (hm : m.length = n) (hl : ∀ t ∈ ts, t.1.length = n) (h : AllAbove m ts) :
    coeff (exponents m) (termsValue ts) = 0 := by
  induction ts with
  | nil => rw [termsValue_nil, MvPolynomial.coeff_zero]
  | cons t ts ih =>
    obtain ⟨ht, hts⟩ := List.forall_mem_cons.1 hl
    have hne : exponents t.1 ≠ exponents m := by
      intro heq
      have hself := exponents_injective (ht.trans hm.symm) heq
      have hlt := h.head
      rw [hself, Monomial.order_self] at hlt
      cases hlt
    rw [termsValue_cons, MvPolynomial.coeff_add, ih hts h.of_cons, termValue,
      MvPolynomial.coeff_monomial, if_neg hne, add_zero]

theorem coeff_termsValue_head {n : ℕ} {t : Term C} {ts : List (Term C)}
    (h : CanonicalTerms n (t :: ts)) : coeff (exponents t.1) (termsValue (t :: ts)) = t.2 := by
  rw [termsValue_cons, MvPolynomial.coeff_add, termValue, MvPolynomial.coeff_monomial, if_pos rfl,
    coeff_termsValue_of_above h.head_length h.tail.length h.above, add_zero]

theorem not_allAbove_of_termsValue_eq {n : ℕ} {x : Term C} {xs ys : List (Term C)}
    (hx : CanonicalTerms n (x :: xs)) (hy : CanonicalTerms n ys)
    (h : termsValue (x :: xs) = termsValue ys) : ¬AllAbove x.1 ys := by
  intro habove
  have hzero := coeff_termsValue_of_above hx.head_length hy.length habove
  rw [← h, coeff_termsValue_head hx] at hzero
  exact (ExactField.isZero_eq_false_iff _).1 hx.head_nonzero hzero

theorem termsValue_injective {n : ℕ} {xs ys : List (Term C)} (hx : CanonicalTerms n xs)
    (hy : CanonicalTerms n ys) (h : termsValue xs = termsValue ys) : xs = ys := by
  induction xs generalizing ys with
  | nil =>
    cases ys with
    | nil => rfl
    | cons y ys => exact absurd (by simp [AllAbove]) (not_allAbove_of_termsValue_eq hy hx h.symm)
  | cons x xs ih =>
    cases ys with
    | nil => exact absurd (by simp [AllAbove]) (not_allAbove_of_termsValue_eq hx hy h)
    | cons y ys =>
      cases hxy : Monomial.order x.1 y.1 with
      | lt =>
        exact absurd (hy.above.cons hxy) (not_allAbove_of_termsValue_eq hx hy h)
      | gt =>
        have hyx := order_lt_of_gt hxy
        exact absurd (hx.above.cons hyx) (not_allAbove_of_termsValue_eq hy hx h.symm)
      | eq =>
        have hmon := Monomial.order_eq_iff.1 hxy
        have hcoeff : x.2 = y.2 := by
          rw [← coeff_termsValue_head hx, ← coeff_termsValue_head hy, h, hmon]
        have hxy' : x = y := Prod.ext hmon hcoeff
        subst hxy'
        rw [termsValue_cons, termsValue_cons] at h
        rw [ih hx.tail hy.tail (add_left_cancel h)]

instance : Poly.NegatesZero C where
  isZero_neg c := by rw [Bool.eq_iff_iff, ExactField.isZero_iff, ExactField.isZero_iff, neg_eq_zero]

namespace Poly

/-- The polynomial over the field. -/
def value (p : Poly C) : MvPolynomial ℕ C := termsValue p.terms

theorem value_zero (n : ℕ) : (zero n : Poly C).value = 0 := rfl

theorem value_injective {n : ℕ} {p q : Poly C} (hp : p.Canonical n) (hq : q.Canonical n)
    (h : p.value = q.value) : p = q := by
  have hterms := termsValue_injective hp.terms hq.terms h
  have hnvars := hp.nvars_eq.trans hq.nvars_eq.symm
  exact congrArg₂ Poly.mk hnvars hterms

theorem isZero_iff_value {n : ℕ} {p : Poly C} (h : p.Canonical n) :
    p.isZero = true ↔ p.value = 0 := by
  rw [isZero_iff]
  constructor
  · intro hp
    rw [value, hp, termsValue_nil]
  · intro hp
    have hz := value_injective h (.zero n) (hp.trans (value_zero n).symm)
    rw [hz, zero_terms]

theorem value_add (p q : Poly C) : (p + q).value = p.value + q.value := termsValue_mergeTerms _ _

theorem value_neg (p : Poly C) : (-p).value = -p.value := by
  change termsValue (p.terms.map fun t => (t.1, -t.2)) = -termsValue p.terms
  induction p.terms with
  | nil => rw [List.map_nil, termsValue_nil, neg_zero]
  | cons t ts ih =>
    rw [List.map_cons, termsValue_cons, termsValue_cons, ih, termValue, termValue, map_neg, neg_add]

theorem value_sub (p q : Poly C) : (p - q).value = p.value - q.value := by
  rw [sub_eq_add_neg, value_add, value_neg]
  ring

theorem value_addTerm (p : Poly C) (m : Monomial) (c : C) :
    (p.addTerm m c).value = p.value + monomial (exponents m) c := by
  rw [value, addTerm, termsValue_mergeTerms, termsValue_cons, termsValue_nil, add_zero]
  rfl

theorem value_ofTerm (m : Monomial) (c : C) : (ofTerm m c).value = monomial (exponents m) c := by
  rw [ofTerm, value_addTerm, value_zero, zero_add]

theorem value_constant (n : ℕ) (c : C) : (constant n c).value = MvPolynomial.C c := by
  rw [constant, value_ofTerm, Monomial.exponents_one]
  rfl

theorem value_coordinate {n k : ℕ} (hk : k < n) :
    (coordinate n k : Poly C).value = MvPolynomial.X k := by
  rw [coordinate, value_ofTerm, Monomial.exponents_coordinate hk]
  rfl

theorem value_scale (p : Poly C) (c : C) : (p.scale c).value = c • p.value := by
  unfold scale
  split
  · rename_i hc
    rw [(ExactField.isZero_iff c).1 hc, zero_smul, value_zero]
  · rw [value, termsValue_nonzeroTerms, value]
    induction p.terms with
    | nil => rw [List.map_nil, termsValue_nil, smul_zero]
    | cons t ts ih =>
      rw [List.map_cons, termsValue_cons, termsValue_cons, ih, smul_add, termValue, termValue,
        MvPolynomial.smul_monomial, smul_eq_mul, mul_comm]

theorem value_filterTerms (p : Poly C) (keep : Monomial → Bool) :
    (p.filterTerms keep).value =
      (p.terms.map fun t => if keep t.1 then termValue t else 0).sum := by
  rw [value, filterTerms]
  induction p.terms with
  | nil => rfl
  | cons t ts ih =>
    dsimp only at ih ⊢
    rw [List.filter_cons, List.map_cons, List.sum_cons, ← ih]
    split
    · rw [termsValue_cons]
    · rw [zero_add]

/-- A linear map that keeps some monomials and drops the others acts as a filter of terms. -/
theorem value_filterTerms_eq {keep : Monomial → Bool}
    {f : MvPolynomial ℕ C →ₗ[C] MvPolynomial ℕ C} (p : Poly C)
    (hf : ∀ t ∈ p.terms, f (termValue t) = if keep t.1 then termValue t else 0) :
    (p.filterTerms keep).value = f p.value := by
  rw [value_filterTerms, value, termsValue, map_list_sum, List.map_map]
  congr 1
  exact List.map_congr_left fun t ht => (hf t ht).symm

theorem value_homogeneousPart (p : Poly C) (d : ℕ) :
    (p.homogeneousPart d).value = MvPolynomial.homogeneousComponent d p.value := by
  refine value_filterTerms_eq p fun t _ => ?_
  rw [termValue, MvPolynomial.homogeneousComponent_of_mem
    (MvPolynomial.isHomogeneous_monomial t.2 (Monomial.degree_exponents t.1))]
  by_cases h : t.1.degree = d
  · simp [h]
  · simp [h, Ne.symm h]

theorem value_removeTerm {n : ℕ} {p : Poly C} (h : p.Canonical n) {m : Monomial}
    (hm : m.length = n) :
    (p.removeTerm m).value = p.value - monomial (exponents m) (coeff (exponents m) p.value) := by
  let drop : MvPolynomial ℕ C →ₗ[C] MvPolynomial ℕ C :=
    LinearMap.id - MvPolynomial.monomial (exponents m) ∘ₗ MvPolynomial.lcoeff C (exponents m)
  have hfilter : p.removeTerm m = p.filterTerms fun k => !(k == m) := rfl
  have hremove : (p.removeTerm m).value = drop p.value := by
    rw [hfilter]
    refine value_filterTerms_eq p fun t ht => ?_
    rw [LinearMap.sub_apply, LinearMap.id_apply, LinearMap.comp_apply, MvPolynomial.lcoeff_apply,
      termValue, MvPolynomial.coeff_monomial]
    by_cases htm : t.1 = m
    · rw [htm, if_pos rfl, sub_self, if_neg (by simp)]
    · have hne : exponents t.1 ≠ exponents m :=
        fun heq => htm (exponents_injective ((h.terms.length t ht).trans hm.symm) heq)
      rw [if_neg hne, map_zero, sub_zero, if_pos (by simpa using htm)]
  exact hremove

theorem value_derivative (p : Poly C) (k : ℕ) :
    (p.derivative k).value = MvPolynomial.pderiv k p.value := by
  rw [value, derivative, termsValue_nonzeroTerms, value]
  induction p.terms with
  | nil => rw [List.filterMap_nil, termsValue_nil, map_zero]
  | cons t ts ih =>
    rw [termsValue_cons, map_add, ← ih, termValue, MvPolynomial.pderiv_monomial,
      Monomial.exponents_apply]
    cases ht : t.1.lower? k with
    | none =>
      have hzero : t.1.exponent k = 0 := by
        unfold Monomial.lower? at ht
        split at ht
        · assumption
        · cases ht
      rw [List.filterMap_cons_none (by rw [ht]; rfl), hzero, Nat.cast_zero, mul_zero, map_zero,
        zero_add]
    | some m =>
      rw [List.filterMap_cons_some (by rw [ht]; rfl), termsValue_cons, termValue,
        ExactField.mulNat_eq, Monomial.exponents_lower? ht]

theorem coeff_value {n : ℕ} {p : Poly C} (h : p.Canonical n) {m : Monomial} (hm : m.length = n) :
    coeff (exponents m) p.value = p.coefficient m := by
  have hlen := h.terms.length
  rcases p with ⟨nvars, ts⟩
  have hsorted := h.terms.sorted
  dsimp only [value] at hlen hsorted ⊢
  induction hsorted with
  | nil => rfl
  | cons t ts habove hsorted ih =>
    obtain ⟨ht, hts⟩ := List.forall_mem_cons.1 hlen
    have htail : CanonicalTerms n ts := h.terms.tail
    rw [coefficient_cons, termsValue_cons, MvPolynomial.coeff_add, termValue,
      MvPolynomial.coeff_monomial]
    by_cases hmt : t.1 = m
    · subst hmt
      rw [if_pos rfl, if_pos rfl, coeff_termsValue_of_above hm hts habove, add_zero]
    · have hne : exponents t.1 ≠ exponents m :=
        fun heq => hmt (exponents_injective (ht.trans hm.symm) heq)
      rw [if_neg hmt, if_neg hne, zero_add]
      exact ih ⟨h.nvars_eq, htail⟩ hts

theorem coeff_value_of_mem {n : ℕ} {p : Poly C} (h : p.Canonical n) {t : Term C}
    (ht : t ∈ p.terms) : coeff (exponents t.1) p.value = t.2 := by
  rw [coeff_value h (h.terms.length t ht), coefficient_of_mem h ht]

theorem exists_mem_of_coeff_ne_zero {p : Poly C} {s : ℕ →₀ ℕ} (h : coeff s p.value ≠ 0) :
    ∃ t ∈ p.terms, exponents t.1 = s := by
  rw [value] at h
  revert h
  induction p.terms with
  | nil => exact fun h => absurd (MvPolynomial.coeff_zero s) h
  | cons t ts ih =>
    intro h
    by_cases hts : exponents t.1 = s
    · exact ⟨t, List.mem_cons_self .., hts⟩
    · rw [termsValue_cons, MvPolynomial.coeff_add, termValue, MvPolynomial.coeff_monomial,
        if_neg hts, zero_add] at h
      obtain ⟨u, hu, hus⟩ := ih h
      exact ⟨u, List.mem_cons_of_mem _ hu, hus⟩

theorem lt_of_mem_vars_value {n : ℕ} {p : Poly C} (h : p.Canonical n) {k : ℕ}
    (hk : k ∈ p.value.vars) : k < n := by
  obtain ⟨s, hs, hks⟩ := (MvPolynomial.mem_vars_iff_mem_support k).1 hk
  obtain ⟨t, ht, rfl⟩ := exists_mem_of_coeff_ne_zero (MvPolynomial.mem_support_iff.1 hs)
  by_contra hle
  have hlen := h.terms.length t ht
  rw [Finsupp.mem_support_iff] at hks
  exact hks (List.getD_eq_default _ _ (by omega))

end Poly

end LieNormalForm

end
