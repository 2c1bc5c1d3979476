import LieNormalForm.Double.Complex
import LieNormalForm.Proofs.Support.Poly

/-!
# Products and substitutions under a limit

A product or a substitution under a limit leaves out the terms above the limit as they arise. The
result is the one without a limit, truncated: a term left out would never have been added to a term
that stays, nor would it have changed the order in which the terms that stay are added up. So this
holds for rounded coefficients as well.
-/

namespace LieNormalForm

variable {C W : Type} [Coefficient C W]

section Terms

theorem filter_insertTerm {keep : Monomial → Bool} {y : Term C} (hy : keep y.1 = true)
    {xs : List (Term C)} (hxs : Sorted xs) :
    (insertTerm y xs).filter (fun t => keep t.1) = insertTerm y (xs.filter fun t => keep t.1) := by
  induction hxs with
  | nil =>
    simp only [insertTerm, List.filter_nil]
    split <;> simp [hy]
  | cons x xs hx hxs ih =>
    cases hxy : Monomial.order x.1 y.1 with
    | lt =>
      simp only [insertTerm, hxy, List.filter_cons, ih]
      split
      · simp only [insertTerm, hxy]
      · rfl
    | eq =>
      have hkept : keep x.1 = true := Monomial.order_eq_iff.1 hxy ▸ hy
      simp only [insertTerm, hxy, addLike, List.filter_cons, hkept, if_true]
      split
      · simp [hkept]
      · split <;> simp [hkept]
    | gt =>
      have habove : AllAbove y.1 (x :: xs) := hx.cons (order_lt_of_gt hxy)
      have hkept : AllAbove y.1 ((x :: xs).filter fun t => keep t.1) :=
        fun t ht => habove t (List.mem_of_mem_filter ht)
      rw [insertTerm_of_above habove, insertTerm_of_above hkept]
      split <;> simp [hy]

/-- A filter on monomials can be put before a sum. -/
theorem CanonicalTerms.filter_mergeTerms {n : ℕ} {xs ys : List (Term C)}
    (hxs : CanonicalTerms n xs) (hys : Sorted ys) (hlength : ∀ t ∈ ys, t.1.length = n)
    (keep : Monomial → Bool) :
    (LieNormalForm.mergeTerms xs ys).filter (fun t => keep t.1) =
      LieNormalForm.mergeTerms (xs.filter fun t => keep t.1) (ys.filter fun t => keep t.1) := by
  rw [mergeTerms_eq_foldl xs hys, mergeTerms_eq_foldl _ (hys.filter _)]
  clear hys
  induction ys generalizing xs with
  | nil => rfl
  | cons y ys ih =>
    obtain ⟨hy, hlength⟩ := List.forall_mem_cons.1 hlength
    rw [List.foldl_cons, ih (hxs.insertTerm hy) hlength, List.filter_cons]
    cases hkeep : keep y.1 with
    | true => simp [filter_insertTerm hkeep hxs.sorted]
    | false =>
      have hdropped : (LieNormalForm.mergeTerms xs [y]).filter (fun t => keep t.1) =
          xs.filter fun t => keep t.1 := LieNormalForm.filter_mergeTerms (by simpa using hkeep)
      rw [mergeTerms_singleton] at hdropped
      simp [hdropped]

end Terms

namespace Poly

variable {n : ℕ} {p q : Poly C} (d : ℕ)

/-- The terms of a row that are left out are the ones above the limit. -/
theorem row_some (hq : q.Canonical n) {x : Term C} (hx : x.1.length = n) :
    row x (some d) q.terms = (row x none q.terms).filter fun t => t.1.degree ≤ d := by
  rw [row_none, List.filter_map, row]
  congr 1
  refine List.filter_congr fun y hy => ?_
  have hlength : x.1.length = y.1.length := hx.trans (hq.terms.length y hy).symm
  simp [within, Monomial.degree_product hlength]

theorem row_of_lt {x : Term C} (hx : d < x.1.degree) (ts : List (Term C)) :
    row x (some d) ts = [] := by
  rw [row, List.map_eq_nil_iff, List.filter_eq_nil_iff]
  intro y _
  simp only [within, decide_eq_true_eq]
  omega

theorem row_filter (x : Term C) (ts : List (Term C)) :
    row x (some d) (ts.filter fun t => t.1.degree ≤ d) = row x (some d) ts := by
  simp only [row, List.filter_filter]
  congr 1
  refine List.filter_congr fun y _ => ?_
  simp only [within, Bool.and_eq_left_iff_imp, decide_eq_true_eq]
  omega

/-- Truncating on the way is truncating at the end. -/
theorem mulWithin_some (hp : p.Canonical n) (hq : q.Canonical n) :
    p.mulWithin q (some d) = (p * q).truncate d := by
  have hfold : ∀ (xs acc : List (Term C)), (∀ x ∈ xs, x.1.length = n) → CanonicalTerms n acc →
      (xs.foldl (fun acc x => mergeTerms acc (row x none q.terms)) acc).filter
          (fun t => t.1.degree ≤ d) =
        xs.foldl (fun acc x => mergeTerms acc (row x (some d) q.terms))
          (acc.filter fun t => t.1.degree ≤ d) := by
    intro xs
    induction xs with
    | nil => exact fun _ _ _ => rfl
    | cons x xs ih =>
      intro acc hxs hacc
      obtain ⟨hx, hxs⟩ := List.forall_mem_cons.1 hxs
      have hsorted := Canonical.row_sorted hq hx none
      have hlength := Canonical.row_length hq hx none
      have hmerge := hacc.filter_mergeTerms hsorted hlength fun m => m.degree ≤ d
      rw [List.foldl_cons, ih _ hxs (hacc.mergeTerms hsorted hlength), hmerge, List.foldl_cons,
        row_some d hq hx]
  have hterms : (p.mulWithin q (some d)).terms = ((p * q).truncate d).terms := by
    rw [mulWithin_terms, ← List.filter_nil, ← hfold p.terms [] hp.terms.length (.nil n),
      ← mulWithin_terms]
    rfl
  exact congrArg (Poly.mk p.nvars) hterms

theorem truncate_mulWithin (p q : Poly C) :
    (p.truncate d).mulWithin q (some d) = p.mulWithin q (some d) := by
  have hfold : ∀ xs acc : List (Term C),
      (xs.filter fun t => t.1.degree ≤ d).foldl
          (fun acc x => mergeTerms acc (row x (some d) q.terms)) acc =
        xs.foldl (fun acc x => mergeTerms acc (row x (some d) q.terms)) acc := by
    intro xs
    induction xs with
    | nil => exact fun _ => rfl
    | cons x xs ih =>
      intro acc
      by_cases hx : x.1.degree ≤ d
      · simp [hx, ih]
      · simp [hx, ih, row_of_lt d (by omega : d < x.1.degree), mergeTerms_nil_right]
  have hterms : ((p.truncate d).mulWithin q (some d)).terms = (p.mulWithin q (some d)).terms := by
    rw [mulWithin_terms, mulWithin_terms]
    exact hfold p.terms []
  exact congrArg (Poly.mk p.nvars) hterms

theorem mulWithin_truncate (p q : Poly C) :
    p.mulWithin (q.truncate d) (some d) = p.mulWithin q (some d) := by
  have hterms : (p.mulWithin (q.truncate d) (some d)).terms = (p.mulWithin q (some d)).terms := by
    simp only [mulWithin_terms, truncate, filterTerms, row_filter]
  exact congrArg (Poly.mk p.nvars) hterms

theorem constant_truncate (n : ℕ) (c : C) : (constant n c).truncate d = constant n c := by
  refine filterTerms_eq_self (.ofTerm ?_ c)
  simp [Monomial.degree_one]

theorem powerWithin_some (hp : p.Canonical n) (e : ℕ) :
    p.powerWithin (some d) e = (p.powerWithin none e).truncate d := by
  induction e with
  | zero => exact (constant_truncate d p.nvars 1).symm
  | succ e ih =>
    rw [powerWithin, ih, truncate_mulWithin, mulWithin_some d (hp.powerWithin none e) hp]
    rfl

theorem timesPowers_some {m : Monomial} {images : List (Poly C)}
    (himages : ∀ g ∈ images, g.Canonical n) (hp : p.Canonical n) :
    (p.truncate d).timesPowers (some d) m images = (p.timesPowers none m images).truncate d := by
  unfold timesPowers
  have hzip : ∀ eg ∈ List.zip m images, eg.2.Canonical n :=
    fun eg heg => himages _ (List.of_mem_zip heg).2
  revert hzip
  generalize List.zip m images = egs
  intro hzip
  induction egs generalizing p with
  | nil => rfl
  | cons eg egs ih =>
    obtain ⟨heg, hegs⟩ := List.forall_mem_cons.1 hzip
    simp only [List.foldl_cons]
    split
    · exact ih hp hegs
    · have hpower := heg.powerWithin none eg.1
      rw [powerWithin_some d heg, truncate_mulWithin, mulWithin_truncate,
        mulWithin_some d hp hpower]
      exact ih (hp.mul hpower) hegs

theorem Canonical.truncate_add (hp : p.Canonical n) (hq : q.Canonical n) :
    (p + q).truncate d = p.truncate d + q.truncate d :=
  congrArg (Poly.mk p.nvars)
    (hp.terms.filter_mergeTerms hq.terms.sorted hq.terms.length fun m => m.degree ≤ d)

theorem foldl_timesPowers_some {images : List (Poly C)} (himages : ∀ g ∈ images, g.Canonical n)
    (ts : List (Term C)) {out : Poly C} (hout : out.Canonical n) :
    ts.foldl (fun out t => out + (constant n t.2).timesPowers (some d) t.1 images)
        (out.truncate d) =
      (ts.foldl (fun out t => out + (constant n t.2).timesPowers none t.1 images) out).truncate
        d := by
  induction ts generalizing out with
  | nil => rfl
  | cons t ts ih =>
    have hconstant : (constant n t.2).Canonical n := .constant n t.2
    have hterm := hconstant.timesPowers none t.1 himages
    have hproduct := timesPowers_some d (m := t.1) himages hconstant
    rw [constant_truncate] at hproduct
    rw [List.foldl_cons, List.foldl_cons, hproduct, ← hout.truncate_add d hterm,
      ih (hout.add hterm)]

theorem substituteWithin_some {images : List (Poly C)}
    (himages : ∀ g ∈ images, g.Canonical g.nvars) (p : Poly C) :
    p.substituteWithin images (some d) = (p.substitute images).map fun r => r.truncate d := by
  unfold substitute substituteWithin
  split
  · rfl
  · dsimp only
    split
    · rfl
    · rename_i hvars
      have hcanonical : ∀ g ∈ images, g.Canonical ((images.head?.map Poly.nvars).getD 0) := by
        intro g hg
        have hsame : g.nvars = (images.head?.map Poly.nvars).getD 0 := by
          simpa using List.find?_eq_none.1 hvars g hg
        exact hsame ▸ himages g hg
      rw [Expansion.expand_value, Expansion.expand_value]
      exact congrArg Except.ok (foldl_timesPowers_some d hcanonical p.terms (.zero _))

/-- Products and substitutions under a limit are the truncated ones, shape errors included. -/
theorem limit_eq_truncate :
    (∀ n, ∀ p q : Poly C, p.Canonical n → q.Canonical n →
      p.mulWithin q (some d) = (p * q).truncate d) ∧
    ∀ (p : Poly C) (images : List (Poly C)), (∀ g ∈ images, g.Canonical g.nvars) →
      p.substituteWithin images (some d) = (p.substitute images).map fun r => r.truncate d :=
  ⟨fun _ _ _ hp hq => mulWithin_some d hp hq,
    fun p _ himages => substituteWithin_some d himages p⟩

/-- The polynomial `0.1·y + x·y² + x³` over doubles. -/
def doubleCubic : Poly FloatComplex :=
  ⟨2, [([0, 1], ⟨0.1, 0⟩), ([1, 2], ⟨1, 0⟩), ([3, 0], ⟨1, 0⟩)]⟩

/-- The images `0.1 + t` and `0.3 - 3·t²` over doubles. -/
def doubleImages : List (Poly FloatComplex) :=
  [⟨1, [([0], ⟨0.1, 0⟩), ([1], ⟨1, 0⟩)]⟩, ⟨1, [([0], ⟨0.3, 0⟩), ([2], ⟨-3, 0⟩)]⟩]

theorem limit_eq_truncate_doubles :
    doubleCubic.mulWithin doubleCubic (some 4) = (doubleCubic * doubleCubic).truncate 4 ∧
      ∃ r, doubleCubic.substitute doubleImages = .ok r ∧
        doubleCubic.substituteWithin doubleImages (some 4) = .ok (r.truncate 4) := by
  obtain ⟨hmul, hsubstitute⟩ := limit_eq_truncate (C := FloatComplex) 4
  have hcubic : doubleCubic.Canonical 2 := by decide +kernel
  have himages : ∀ g ∈ doubleImages, g.Canonical g.nvars := by decide +kernel
  obtain ⟨r, hr⟩ : ∃ r, doubleCubic.substitute doubleImages = .ok r :=
    exists_eq_ok_of_isOk (by decide +kernel)
  have hlimit := hsubstitute doubleCubic doubleImages himages
  rw [hr] at hlimit
  exact ⟨hmul 2 doubleCubic doubleCubic hcubic hcubic, r, hr, hlimit⟩

end Poly

end LieNormalForm
