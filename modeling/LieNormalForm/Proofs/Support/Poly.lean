import Mathlib.Data.List.GetD
import LieNormalForm.Proofs.Canonical.Poly

/-!
# Monomials that can occur

Which monomials the terms of a result stand in front of can be said without any law of
arithmetic: sums and multiples bring in no new ones, a product has only products of monomials of
its factors, and a derivative only lowered ones. In particular degrees add up.
-/

namespace LieNormalForm

namespace Monomial

/-- Exponents of `n` variables with total degree `d`. -/
def OfDegree (n d : ℕ) (m : Monomial) : Prop := m.length = n ∧ m.degree = d

theorem degree_set (m : Monomial) {k : ℕ} (hk : k < m.length) (e : ℕ) :
    degree (m.set k e) + m.exponent k = m.degree + e := by
  induction m generalizing k with
  | nil => cases hk
  | cons a m ih =>
    cases k with
    | zero =>
      simp only [List.set_cons_zero, degree_cons, exponent, List.getD_cons_zero]
      omega
    | succ k =>
      have hrest := ih (Nat.lt_of_succ_lt_succ hk)
      simp only [exponent] at hrest
      simp only [List.set_cons_succ, degree_cons, exponent, List.getD_cons_succ]
      omega

theorem eq_one_of_degree {n : ℕ} {m : Monomial} (hm : m.length = n) (h : m.degree = 0) :
    m = one n := by
  subst hm
  induction m with
  | nil => rfl
  | cons a m ih =>
    rw [degree_cons] at h
    obtain ⟨rfl, hrest⟩ : a = 0 ∧ degree m = 0 := by omega
    rw [List.length_cons, one, List.replicate_succ, ih hrest, one, List.length_replicate]

theorem degree_lower? {m m' : Monomial} {k : ℕ} (h : m.lower? k = some m') :
    m'.degree + 1 = m.degree := by
  unfold lower? at h
  split at h
  · cases h
  · rename_i hne
    have hk : k < m.length := by
      by_contra hle
      apply hne
      rw [exponent, List.getD_eq_getElem?_getD, List.getElem?_eq_none (by omega)]
      rfl
    have hset := degree_set m hk (m.exponent k - 1)
    cases h
    omega

theorem length_lt_of_lower? {m m' : Monomial} {k : ℕ} (h : m.lower? k = some m') : k < m.length := by
  by_contra hle
  have hzero : m.exponent k = 0 := List.getD_eq_default _ _ (by omega)
  simp [lower?, hzero] at h

theorem one_product {n : ℕ} {m : Monomial} (h : m.length = n) : (one n).product m = m := by
  subst h
  induction m with
  | nil => rfl
  | cons a m ih =>
    simp only [one, product, List.length_cons, List.replicate_succ, List.zipWith_cons_cons,
      Nat.zero_add] at ih ⊢
    rw [ih]

theorem exponent_coordinate {n j : ℕ} (hj : j < n) (k : ℕ) :
    (coordinate n k).exponent j = if j = k then 1 else 0 := by
  simp [exponent, coordinate, List.getD_eq_getElem?_getD, hj]

/-- The only variable that a coordinate can lose is its own. -/
theorem lower?_coordinate {n k j : ℕ} {m : Monomial} (h : (coordinate n k).lower? j = some m) :
    j = k ∧ m = one n := by
  have hj := length_lt_of_lower? h
  rw [coordinate_length] at hj
  have hjk : j = k := by
    by_contra hne
    simp [lower?, exponent_coordinate hj, hne] at h
  subst hjk
  have hset : (coordinate n j).set j 0 = m := by
    simpa [lower?, exponent_coordinate hj] using h
  refine ⟨rfl, hset ▸ List.ext_getElem (by simp [coordinate, one]) fun i hi _ => ?_⟩
  simp [coordinate, one, List.getElem_set]
  omega

theorem degree_coordinate {n j : ℕ} (hj : j < n) : (coordinate n j).degree = 1 := by
  have hlower : (coordinate n j).lower? j = some ((coordinate n j).set j 0) := by
    simp [lower?, exponent_coordinate hj]
  rw [← degree_lower? hlower, (lower?_coordinate hlower).2, degree_one]

/-- Multiplying by a variable undoes taking it away. -/
theorem product_coordinate_of_lower? {n j : ℕ} {m m' : Monomial} (hm : m.length = n)
    (h : m.lower? j = some m') : m'.product (coordinate n j) = m := by
  have hj := length_lt_of_lower? h
  subst hm
  unfold lower? at h
  split at h
  · cases h
  · rename_i hne
    cases h
    refine List.ext_getElem (by simp [product, coordinate]) fun i hi hi' => ?_
    have hexponent : m.exponent j = m[j] := List.getD_eq_getElem _ _ hj
    rw [hexponent] at hne
    by_cases hij : i = j
    · subst hij
      simp only [product, coordinate, hexponent, List.getElem_zipWith, List.getElem_set_self,
        List.getElem_map, List.getElem_range, if_true]
      omega
    · simp [product, coordinate, hij, Ne.symm hij]

theorem exists_coordinate {n : ℕ} {m : Monomial} (h : m.OfDegree n 1) :
    ∃ j < n, m = coordinate n j := by
  obtain ⟨hlength, hdegree⟩ := h
  have hvariable : ∃ j, m.exponent j ≠ 0 := by
    by_contra hnone
    push Not at hnone
    have hone : m = one n := by
      refine List.ext_getElem (by simp [one, hlength]) fun i hi _ => ?_
      have hi0 := hnone i
      rw [exponent, List.getD_eq_getElem _ _ hi] at hi0
      simp [one, hi0]
    rw [hone, degree_one] at hdegree
    cases hdegree
  obtain ⟨j, hj⟩ := hvariable
  have hlower : m.lower? j = some (m.set j (m.exponent j - 1)) := by simp [lower?, hj]
  have hproduct := product_coordinate_of_lower? hlength hlower
  have hrest := degree_lower? hlower
  refine ⟨j, hlength ▸ length_lt_of_lower? hlower, ?_⟩
  have hone : m.set j (m.exponent j - 1) = one n := by
    refine eq_one_of_degree ((List.length_set ..).trans hlength) (by omega)
  rw [← hproduct, hone, one_product (coordinate_length n j)]

theorem OfDegree.product {n d e : ℕ} {m k : Monomial} (hm : m.OfDegree n d)
    (hk : k.OfDegree n e) : (m.product k).OfDegree n (d + e) := by
  have hlength : m.length = k.length := hm.1.trans hk.1.symm
  refine ⟨(product_length hlength).trans hm.1, ?_⟩
  rw [degree_product hlength, hm.2, hk.2]

end Monomial

variable {C W : Type} [Coefficient C W]

theorem forall_nonzeroTerms {P : Monomial → Prop} {ts : List (Term C)} (h : ∀ t ∈ ts, P t.1) :
    ∀ t ∈ nonzeroTerms ts, P t.1 := fun t ht => h t (List.mem_of_mem_filter ht)

theorem forall_addLike {P : Monomial → Prop} {x y : Term C} {rest : List (Term C)} (hx : P x.1)
    (hrest : ∀ t ∈ rest, P t.1) : ∀ t ∈ addLike x y rest, P t.1 := by
  unfold addLike
  split
  · exact List.forall_mem_cons.2 ⟨hx, hrest⟩
  · split
    · exact hrest
    · exact List.forall_mem_cons.2 ⟨hx, hrest⟩

theorem forall_mergeTerms {P : Monomial → Prop} {xs ys : List (Term C)} (hxs : ∀ t ∈ xs, P t.1)
    (hys : ∀ t ∈ ys, P t.1) : ∀ t ∈ mergeTerms xs ys, P t.1 := by
  induction xs generalizing ys with
  | nil => exact forall_nonzeroTerms hys
  | cons x xs ih =>
    obtain ⟨hx, hrest⟩ := List.forall_mem_cons.1 hxs
    induction ys with
    | nil => exact hxs
    | cons y ys ihy =>
      obtain ⟨hy, hlater⟩ := List.forall_mem_cons.1 hys
      simp only [mergeTerms, mergeHead]
      split
      · exact List.forall_mem_cons.2 ⟨hx, ih hrest hys⟩
      · exact forall_addLike hx (ih hrest hlater)
      · split
        · exact ihy hlater
        · exact List.forall_mem_cons.2 ⟨hy, ihy hlater⟩

/-- Merging in terms that a filter drops does not show behind the filter. -/
theorem filter_mergeTerms {keep : Monomial → Bool} {xs ys : List (Term C)}
    (h : ∀ t ∈ ys, keep t.1 = false) :
    (mergeTerms xs ys).filter (fun t => keep t.1) = xs.filter fun t => keep t.1 := by
  induction xs generalizing ys with
  | nil =>
    refine List.filter_eq_nil_iff.2 fun t ht => ?_
    simp [h t (List.mem_of_mem_filter ht)]
  | cons x xs ih =>
    induction ys with
    | nil => rfl
    | cons y ys ihy =>
      obtain ⟨hy, hlater⟩ := List.forall_mem_cons.1 h
      simp only [mergeTerms, mergeHead]
      split
      · rw [List.filter_cons, List.filter_cons, ih h]
      · rename_i heq
        have hx : keep x.1 = false := Monomial.order_eq_iff.1 heq ▸ hy
        unfold addLike
        split
        · simp [hx, ih hlater]
        · split <;> simp [hx, ih hlater]
      · split
        · exact ihy hlater
        · rw [List.filter_cons, hy]
          exact ihy hlater

theorem min?_filter_le (l : List ℕ) (r : ℕ) :
    (l.filter fun d => d ≤ r).min? = l.min?.filter fun d => d ≤ r := by
  cases h : l.min? with
  | none => simp [List.min?_eq_none_iff.1 h]
  | some d =>
    obtain ⟨hmem, hmin⟩ := List.min?_eq_some_iff.1 h
    by_cases hd : d ≤ r
    · rw [Option.filter_some, if_pos (decide_eq_true hd)]
      refine List.min?_eq_some_iff.2 ⟨List.mem_filter.2 ⟨hmem, decide_eq_true hd⟩, fun e he => ?_⟩
      exact hmin e (List.mem_of_mem_filter he)
    · rw [Option.filter_some, if_neg (by simpa using hd), List.min?_eq_none_iff,
        List.filter_eq_nil_iff]
      intro e he
      have hde := hmin e he
      simp only [decide_eq_true_eq]
      omega

namespace Poly

/-- Every monomial of the polynomial has a property. -/
def Supported (P : Monomial → Prop) (p : Poly C) : Prop := ∀ t ∈ p.terms, P t.1

theorem terms_eq_nil_of_supported {p : Poly C} (h : p.Supported fun _ => False) : p.terms = [] :=
  List.eq_nil_iff_forall_not_mem.2 h

/-- No monomial has a larger degree than the polynomial. -/
theorem supported_of_degree? {p : Poly C} {d : ℕ} (h : p.degree? = some d) :
    p.Supported fun m => m.degree ≤ d :=
  fun _ ht => (List.max?_eq_some_iff.1 h).2 _ (List.mem_map_of_mem ht)

theorem terms_eq_nil_of_degree? {p : Poly C} (h : p.degree? = none) : p.terms = [] :=
  List.map_eq_nil_iff.1 (List.max?_eq_none_iff.1 h)

theorem add_eq_self {p q : Poly C} (h : q.terms = []) : p + q = p := by
  change Poly.mk p.nvars (mergeTerms p.terms q.terms) = p
  rw [h, mergeTerms_nil_right]

theorem sub_eq_self {p q : Poly C} (h : q.terms = []) : p - q = p := by
  refine add_eq_self ?_
  change q.terms.map _ = []
  rw [h, List.map_nil]

namespace Supported

variable {P Q R : Monomial → Prop} {p q : Poly C}

theorem zero (n : ℕ) : (zero n : Poly C).Supported P := by simp [Supported, Poly.zero]

theorem imp (h : p.Supported P) (hPQ : ∀ m, P m → Q m) : p.Supported Q :=
  fun t ht => hPQ t.1 (h t ht)

theorem addTerm (h : p.Supported P) {m : Monomial} (hm : P m) (c : C) :
    (p.addTerm m c).Supported P := forall_addTerm hm h c

theorem ofTerm {m : Monomial} (hm : P m) (c : C) : (ofTerm m c).Supported P :=
  (zero m.length).addTerm hm c

theorem add (hp : p.Supported P) (hq : q.Supported P) : (p + q).Supported P :=
  forall_mergeTerms hp hq

theorem neg (h : p.Supported P) : (-p).Supported P := by
  intro t ht
  obtain ⟨s, hs, rfl⟩ := List.mem_map.1 ht
  exact h s hs

theorem sub (hp : p.Supported P) (hq : q.Supported P) : (p - q).Supported P := hp.add hq.neg

theorem scale (h : p.Supported P) (c : C) : (p.scale c).Supported P := by
  unfold Poly.scale
  split
  · exact zero _
  · apply forall_nonzeroTerms
    intro t ht
    obtain ⟨s, hs, rfl⟩ := List.mem_map.1 ht
    exact h s hs

theorem filterTerms (h : p.Supported P) (keep : Monomial → Bool) :
    (p.filterTerms keep).Supported fun m => P m ∧ keep m = true := by
  intro t ht
  obtain ⟨hmem, hkeep⟩ := List.mem_filter.1 ht
  exact ⟨h t hmem, hkeep⟩

theorem removeTerm (h : p.Supported P) (m : Monomial) : (p.removeTerm m).Supported P :=
  fun t ht => h t (List.mem_of_mem_filter ht)

theorem mul (hp : p.Supported P) (hq : q.Supported Q)
    (hproduct : ∀ m k, P m → Q k → R (m.product k)) : (p * q).Supported R := by
  have hrow : ∀ x ∈ p.terms, ∀ t ∈ row x none q.terms, R t.1 := by
    intro x hx t ht
    obtain ⟨y, hy, rfl⟩ := List.mem_map.1 ht
    exact hproduct x.1 y.1 (hp x hx) (hq y (List.mem_of_mem_filter hy))
  have hfold : ∀ (xs acc : List (Term C)), (∀ x ∈ xs, ∀ t ∈ row x none q.terms, R t.1) →
      (∀ t ∈ acc, R t.1) →
      ∀ t ∈ xs.foldl (fun acc x => mergeTerms acc (row x none q.terms)) acc, R t.1 := by
    intro xs
    induction xs with
    | nil => exact fun _ _ hacc => hacc
    | cons x xs ih =>
      intro acc hxs hacc
      obtain ⟨hx, hxs⟩ := List.forall_mem_cons.1 hxs
      exact ih _ hxs (forall_mergeTerms hacc hx)
  rw [Supported, mul_eq_mulWithin, mulWithin_terms]
  exact hfold p.terms [] hrow (by simp)

theorem derivative (h : p.Supported P) (k : ℕ)
    (hlower : ∀ m m', P m → m.lower? k = some m' → Q m') : (p.derivative k).Supported Q := by
  apply forall_nonzeroTerms
  intro t ht
  obtain ⟨s, hs, hst⟩ := List.mem_filterMap.1 ht
  obtain ⟨m, hm, rfl⟩ := Option.map_eq_some_iff.1 hst
  exact hlower s.1 m (h s hs) hm

end Supported

section Filter

variable {p q : Poly C} {keep : Monomial → Bool}

theorem filterTerms_eq_self (h : p.Supported fun m => keep m = true) : p.filterTerms keep = p := by
  rw [filterTerms, List.filter_eq_self.2 h]

theorem filterTerms_add (h : q.Supported fun m => keep m = false) :
    (p + q).filterTerms keep = p.filterTerms keep :=
  congrArg (Poly.mk p.nvars) (filter_mergeTerms h)

theorem filterTerms_sub (h : q.Supported fun m => keep m = false) :
    (p - q).filterTerms keep = p.filterTerms keep := filterTerms_add h.neg

theorem filterTerms_filterTerms (keep' : Monomial → Bool) :
    (p.filterTerms keep').filterTerms keep = p.filterTerms fun m => keep m && keep' m := by
  simp [filterTerms, List.filter_filter]

theorem removeTerm_eq_filterTerms (m : Monomial) :
    p.removeTerm m = p.filterTerms fun k => !(k == m) := rfl

theorem coefficient_filterTerms {m : Monomial} (h : keep m = true) :
    (p.filterTerms keep).coefficient m = p.coefficient m := by
  have hkept : ∀ t : Term C, (decide (keep t.1 = true ∧ (t.1 == m) = true)) = (t.1 == m) := by
    intro t
    by_cases ht : t.1 = m
    · simp [ht, h]
    · simp [ht]
  simp only [coefficient, filterTerms, List.find?_filter, hkept]

theorem minDegree?_truncate (p : Poly C) (r : ℕ) :
    (p.truncate r).minDegree? = p.minDegree?.filter fun d => d ≤ r := by
  rw [minDegree?, minDegree?, ← min?_filter_le, List.filter_map]
  rfl

end Filter

end Poly

end LieNormalForm
