import Mathlib.Data.Nat.Notation
import Mathlib.Data.List.Basic
import LieNormalForm.Poly.Substitute

/-!
# The canonical form of polynomials

Terms in increasing order, each exponent list once and as long as there are variables, and no
coefficient that counts as zero. Every operation on polynomials keeps this form. No law of
arithmetic is needed for it, except that a negation takes nothing to zero.
-/

namespace LieNormalForm

namespace Monomial

theorem order_product {x m k : Monomial} (hm : m.length = x.length) (hk : k.length = x.length) :
    order (product x m) (product x k) = order m k := by
  induction x generalizing m k with
  | nil =>
    rw [List.length_eq_zero_iff.1 hm, List.length_eq_zero_iff.1 hk]
    rfl
  | cons a x ih =>
    obtain ⟨b, m, rfl⟩ := List.exists_cons_of_length_eq_add_one hm
    obtain ⟨c, k, rfl⟩ := List.exists_cons_of_length_eq_add_one hk
    have hrest := ih (Nat.succ.inj hm) (Nat.succ.inj hk)
    simp only [product, List.zipWith_cons_cons, order, Nat.add_lt_add_iff_left] at hrest ⊢
    rw [hrest]

theorem order_lower? {m k m' k' : Monomial} {j : ℕ} (hm : m.lower? j = some m')
    (hk : k.lower? j = some k') : order m' k' = order m k := by
  unfold lower? at hm hk
  split at hm
  · cases hm
  rename_i hm0
  split at hk
  · cases hk
  rename_i hk0
  cases hm
  cases hk
  induction j generalizing m k with
  | zero =>
    cases m with
    | nil => exact absurd rfl hm0
    | cons a m =>
      cases k with
      | nil => exact absurd rfl hk0
      | cons b k =>
        simp only [exponent, List.getD_cons_zero] at hm0 hk0
        simp only [List.set_cons_zero, exponent, List.getD_cons_zero, order]
        have hab : a - 1 < b - 1 ↔ a < b := by omega
        have hba : b - 1 < a - 1 ↔ b < a := by omega
        simp only [hab, hba]
  | succ j ih =>
    cases m with
    | nil => exact absurd rfl hm0
    | cons a m =>
      cases k with
      | nil => exact absurd rfl hk0
      | cons b k =>
        simp only [exponent, List.getD_cons_succ] at hm0 hk0 ih
        simp only [List.set_cons_succ, exponent, List.getD_cons_succ, order]
        rw [ih hm0 hk0]

end Monomial

variable {C W : Type} [Coefficient C W]

theorem sorted_iff_pairwise (ts : List (Term C)) :
    Sorted ts ↔ ts.Pairwise fun s t => Monomial.order s.1 t.1 = .lt := by
  constructor
  · intro h
    induction h with
    | nil => exact .nil
    | cons x xs hx _ ih => exact .cons hx ih
  · intro h
    induction h with
    | nil => exact .nil
    | cons hx _ ih => exact .cons _ _ hx ih

theorem AllAbove.cons {m : Monomial} {x : Term C} {xs : List (Term C)} (h : AllAbove x.1 xs)
    (hx : Monomial.order m x.1 = .lt) : AllAbove m (x :: xs) :=
  List.forall_mem_cons.2 ⟨hx, h.trans hx⟩

theorem forall_insertTerm {P : Monomial → Prop} {y : Term C} {xs : List (Term C)} (hy : P y.1)
    (hxs : ∀ t ∈ xs, P t.1) : ∀ t ∈ insertTerm y xs, P t.1 := by
  induction xs with
  | nil =>
    unfold insertTerm
    split
    · exact hxs
    · exact List.forall_mem_singleton.2 hy
  | cons x xs ih =>
    obtain ⟨hx, hrest⟩ := List.forall_mem_cons.1 hxs
    unfold insertTerm
    split
    · exact List.forall_mem_cons.2 ⟨hx, ih hrest⟩
    · unfold addLike
      split
      · exact hxs
      · split
        · exact hrest
        · exact List.forall_mem_cons.2 ⟨hx, hrest⟩
    · split
      · exact hxs
      · exact List.forall_mem_cons.2 ⟨hy, hxs⟩

theorem insertTerm_of_above {y : Term C} {xs : List (Term C)} (h : AllAbove y.1 xs) :
    insertTerm y xs = if Coefficient.isZero y.2 then xs else y :: xs := by
  cases xs with
  | nil => rfl
  | cons x xs =>
    have hgt : Monomial.order x.1 y.1 = .gt := by rw [Monomial.order_swap, h.head]; rfl
    simp only [insertTerm, hgt]

/-- Terms with different monomials may be inserted in either order. -/
theorem insertTerm_comm_of_lt {y z : Term C} (hyz : Monomial.order y.1 z.1 = .lt)
    {xs : List (Term C)} (hxs : Sorted xs) :
    insertTerm y (insertTerm z xs) = insertTerm z (insertTerm y xs) := by
  have hbelow : ∀ {xs : List (Term C)}, AllAbove y.1 xs →
      insertTerm y (insertTerm z xs) = insertTerm z (insertTerm y xs) := by
    intro xs habove
    rw [insertTerm_of_above (forall_insertTerm (P := fun m => Monomial.order y.1 m = .lt) hyz habove),
      insertTerm_of_above habove]
    split <;> simp [insertTerm, hyz]
  induction hxs with
  | nil => exact hbelow (by simp [AllAbove])
  | cons x xs hx _ ih =>
    cases hxy : Monomial.order x.1 y.1 with
    | lt => simp [insertTerm, hxy, Monomial.order_trans hxy hyz, ih]
    | eq =>
      have hxz : Monomial.order x.1 z.1 = .lt := Monomial.order_eq_iff.1 hxy ▸ hyz
      simp only [insertTerm, hxy, hxz, addLike]
      split
      · simp [insertTerm, hxz]
      · split <;> simp [insertTerm, hxz]
    | gt => exact hbelow (hx.cons (order_lt_of_gt hxy))

theorem insertTerm_comm {y z : Term C} (hne : y.1 ≠ z.1) {xs : List (Term C)} (hxs : Sorted xs) :
    insertTerm y (insertTerm z xs) = insertTerm z (insertTerm y xs) := by
  cases hyz : Monomial.order y.1 z.1 with
  | lt => exact insertTerm_comm_of_lt hyz hxs
  | eq => exact absurd (Monomial.order_eq_iff.1 hyz) hne
  | gt => exact (insertTerm_comm_of_lt (order_lt_of_gt hyz) hxs).symm

theorem Sorted.nodup_monomials {ts : List (Term C)} (h : Sorted ts) : (ts.map Prod.fst).Nodup := by
  refine List.pairwise_map.2 (((sorted_iff_pairwise ts).1 h).imp fun hlt heq => ?_)
  rw [heq, Monomial.order_self] at hlt
  cases hlt

/-- New coefficients leave the order as it is. -/
theorem Sorted.mapCoefficients {ts : List (Term C)} (h : Sorted ts) (f : C → C) :
    Sorted (ts.map fun t => (t.1, f t.2)) :=
  (sorted_iff_pairwise _).2 (((sorted_iff_pairwise ts).1 h).map _ fun _ _ hst => hst)

theorem Sorted.filter {ts : List (Term C)} (h : Sorted ts) (keep : Term C → Bool) :
    Sorted (ts.filter keep) :=
  (sorted_iff_pairwise _).2 (((sorted_iff_pairwise ts).1 h).filter keep)

theorem Sorted.perm_cons_filter {ts : List (Term C)} (h : Sorted ts) {t : Term C} (ht : t ∈ ts) :
    ts.Perm (t :: ts.filter fun u => !(u.1 == t.1)) := by
  induction h with
  | nil => cases ht
  | cons x xs hx _ ih =>
    have hdifferent : ∀ u ∈ xs, u.1 ≠ x.1 := by
      intro u hu heq
      have hlt := hx u hu
      rw [heq, Monomial.order_self] at hlt
      cases hlt
    rcases List.mem_cons.1 ht with rfl | hmem
    · have hkept : (xs.filter fun u => !(u.1 == t.1)) = xs :=
        List.filter_eq_self.2 fun u hu => by simp [hdifferent u hu]
      simp [hkept]
    · have hkept : x.1 ≠ t.1 := Ne.symm (hdifferent t hmem)
      rw [List.filter_cons_of_pos (by simpa using hkept)]
      exact ((ih hmem).cons x).trans (.swap t x _)

/-- What the terms of a polynomial in `n` variables look like. -/
structure CanonicalTerms (n : ℕ) (ts : List (Term C)) : Prop where
  sorted : Sorted ts
  nonzero : ∀ t ∈ ts, Coefficient.isZero t.2 = false
  length : ∀ t ∈ ts, t.1.length = n

instance (n : ℕ) (ts : List (Term C)) : Decidable (CanonicalTerms n ts) :=
  decidable_of_iff
    ((ts.Pairwise fun s t => Monomial.order s.1 t.1 = .lt) ∧
      (∀ t ∈ ts, Coefficient.isZero t.2 = false) ∧ ∀ t ∈ ts, t.1.length = n)
    ⟨fun h => ⟨(sorted_iff_pairwise ts).2 h.1, h.2.1, h.2.2⟩,
      fun h => ⟨(sorted_iff_pairwise ts).1 h.sorted, h.nonzero, h.length⟩⟩

namespace CanonicalTerms

theorem nil (n : ℕ) : CanonicalTerms n ([] : List (Term C)) :=
  ⟨.nil, by simp, by simp⟩

theorem cons {n : ℕ} {x : Term C} {xs : List (Term C)} (hx : x.1.length = n)
    (hzero : Coefficient.isZero x.2 = false) (habove : AllAbove x.1 xs)
    (h : CanonicalTerms n xs) : CanonicalTerms n (x :: xs) :=
  ⟨.cons x xs habove h.sorted, List.forall_mem_cons.2 ⟨hzero, h.nonzero⟩,
    List.forall_mem_cons.2 ⟨hx, h.length⟩⟩

theorem head_length {n : ℕ} {x : Term C} {xs : List (Term C)} (h : CanonicalTerms n (x :: xs)) :
    x.1.length = n := h.length x (List.mem_cons_self ..)

theorem head_nonzero {n : ℕ} {x : Term C} {xs : List (Term C)} (h : CanonicalTerms n (x :: xs)) :
    Coefficient.isZero x.2 = false := h.nonzero x (List.mem_cons_self ..)

theorem above {n : ℕ} {x : Term C} {xs : List (Term C)} (h : CanonicalTerms n (x :: xs)) :
    AllAbove x.1 xs := by
  cases h.sorted with
  | cons _ _ hx _ => exact hx

theorem tail {n : ℕ} {x : Term C} {xs : List (Term C)} (h : CanonicalTerms n (x :: xs)) :
    CanonicalTerms n xs := by
  cases h.sorted with
  | cons _ _ _ hxs =>
    exact ⟨hxs, fun t ht => h.nonzero t (List.mem_cons_of_mem _ ht),
      fun t ht => h.length t (List.mem_cons_of_mem _ ht)⟩

theorem filter {n : ℕ} {ts : List (Term C)} (h : CanonicalTerms n ts) (keep : Term C → Bool) :
    CanonicalTerms n (ts.filter keep) :=
  ⟨h.sorted.filter keep,
    fun t ht => h.nonzero t (List.mem_of_mem_filter ht),
    fun t ht => h.length t (List.mem_of_mem_filter ht)⟩

theorem nonzeroTerms {n : ℕ} {ts : List (Term C)} (hs : Sorted ts)
    (hl : ∀ t ∈ ts, t.1.length = n) : CanonicalTerms n (nonzeroTerms ts) := by
  refine ⟨hs.filter _, fun t ht => ?_, fun t ht => hl t (List.mem_of_mem_filter ht)⟩
  have hzero := (List.mem_filter.1 ht).2
  simpa using hzero

theorem length_mapCoefficients {n : ℕ} {ts : List (Term C)} (h : CanonicalTerms n ts) (f : C → C) :
    ∀ t ∈ ts.map (fun t => (t.1, f t.2)), t.1.length = n := by
  intro t ht
  obtain ⟨s, hs, rfl⟩ := List.mem_map.1 ht
  exact h.length s hs

theorem mapCoefficients {n : ℕ} {ts : List (Term C)} (h : CanonicalTerms n ts) (f : C → C) :
    CanonicalTerms n (LieNormalForm.nonzeroTerms (ts.map fun t => (t.1, f t.2))) :=
  nonzeroTerms (h.sorted.mapCoefficients f) (h.length_mapCoefficients f)

theorem insertTerm {n : ℕ} {y : Term C} {xs : List (Term C)} (hy : y.1.length = n)
    (h : CanonicalTerms n xs) : CanonicalTerms n (insertTerm y xs) := by
  induction xs with
  | nil =>
    unfold LieNormalForm.insertTerm
    split
    · exact h
    · rename_i hzero
      exact .cons hy (by simpa using hzero) (by simp [AllAbove]) h
  | cons x xs ih =>
    have hrest := ih h.tail
    unfold LieNormalForm.insertTerm
    split
    · rename_i hlt
      have habove := forall_insertTerm (P := fun k => Monomial.order x.1 k = .lt) hlt h.above
      exact .cons h.head_length h.head_nonzero habove hrest
    · unfold addLike
      split
      · exact h
      · split
        · exact h.tail
        · rename_i hsum
          exact .cons h.head_length (by simpa using hsum) h.above h.tail
    · rename_i hgt
      split
      · exact h
      · rename_i hzero
        exact .cons hy (by simpa using hzero) (h.above.cons (order_lt_of_gt hgt)) h

theorem mergeTerms {n : ℕ} {xs ys : List (Term C)} (h : CanonicalTerms n xs) (hs : Sorted ys)
    (hl : ∀ t ∈ ys, t.1.length = n) : CanonicalTerms n (mergeTerms xs ys) := by
  rw [mergeTerms_eq_foldl xs hs]
  clear hs
  induction ys generalizing xs with
  | nil => exact h
  | cons y ys ih =>
    obtain ⟨hy, hys⟩ := List.forall_mem_cons.1 hl
    exact ih (h.insertTerm hy) hys

end CanonicalTerms

deriving instance DecidableEq for Poly

namespace Poly

/-- A polynomial in `n` variables in canonical form. -/
structure Canonical (n : ℕ) (p : Poly C) : Prop where
  nvars_eq : p.nvars = n
  terms : CanonicalTerms n p.terms

instance (n : ℕ) (p : Poly C) : Decidable (p.Canonical n) :=
  decidable_of_iff (p.nvars = n ∧ CanonicalTerms n p.terms)
    ⟨fun h => ⟨h.1, h.2⟩, fun h => ⟨h.nvars_eq, h.terms⟩⟩

theorem forall_addTerm {P : Monomial → Prop} {p : Poly C} {m : Monomial} (hm : P m)
    (hp : ∀ t ∈ p.terms, P t.1) (c : C) : ∀ t ∈ (p.addTerm m c).terms, P t.1 := by
  rw [addTerm_terms]
  exact forall_insertTerm hm hp

theorem coefficient_cons (n : ℕ) (t : Term C) (ts : List (Term C)) (m : Monomial) :
    (⟨n, t :: ts⟩ : Poly C).coefficient m =
      if t.1 = m then t.2 else (⟨n, ts⟩ : Poly C).coefficient m := by
  by_cases h : t.1 = m
  · simp [coefficient, h]
  · simp [coefficient, h]

theorem coefficient_of_mem {n : ℕ} {p : Poly C} (h : p.Canonical n) {t : Term C}
    (ht : t ∈ p.terms) : p.coefficient t.1 = t.2 := by
  rcases p with ⟨nvars, ts⟩
  have hsorted := h.terms.sorted
  dsimp only at ht hsorted
  induction hsorted with
  | nil => cases ht
  | cons s ss habove hsorted ih =>
    rw [coefficient_cons]
    rcases List.mem_cons.1 ht with rfl | hmem
    · rw [if_pos rfl]
    · have hne : s.1 ≠ t.1 := by
        intro heq
        have hlt := habove t hmem
        rw [heq, Monomial.order_self] at hlt
        cases hlt
      rw [if_neg hne]
      exact ih ⟨h.nvars_eq, h.terms.tail⟩ hmem

/-- Negation takes no coefficient to zero or away from it. -/
class NegatesZero (C : Type) {W : outParam Type} [Coefficient C W] : Prop where
  isZero_neg (c : C) : Coefficient.isZero (-c) = Coefficient.isZero c

namespace Canonical

variable {n : ℕ} {p q : Poly C}

theorem at_nvars (h : p.Canonical n) : p.Canonical p.nvars := h.nvars_eq.symm ▸ h

theorem zero (n : ℕ) : (zero n : Poly C).Canonical n := ⟨rfl, .nil n⟩

theorem addTerm (h : p.Canonical n) {m : Monomial} (hm : m.length = n) (c : C) :
    (p.addTerm m c).Canonical n := by
  refine ⟨h.nvars_eq, ?_⟩
  rw [addTerm_terms]
  exact h.terms.insertTerm hm

theorem addTerm_comm (hp : p.Canonical n) {m m' : Monomial}
    (hne : m ≠ m') (c c' : C) :
    (p.addTerm m c).addTerm m' c' = (p.addTerm m' c').addTerm m c := by
  have hterms := insertTerm_comm (y := (m', c')) (z := (m, c)) hne.symm hp.terms.sorted
  rw [← addTerm_terms, ← addTerm_terms, ← addTerm_terms, ← addTerm_terms] at hterms
  exact congrArg (Poly.mk p.nvars) hterms

/-- Putting the terms together again one by one. -/
theorem foldl_addTerm (hp : p.Canonical n) :
    p.terms.foldl (fun q t => q.addTerm t.1 t.2) (Poly.zero n) = p := by
  have hterms : ∀ (ts : List (Term C)) (q : Poly C),
      ts.foldl (fun q t => q.addTerm t.1 t.2) q =
        ⟨q.nvars, ts.foldl (fun us t => LieNormalForm.insertTerm t us) q.terms⟩ := by
    intro ts
    induction ts with
    | nil => exact fun _ => rfl
    | cons t ts ih =>
      intro q
      rw [List.foldl_cons, ih, List.foldl_cons, addTerm_terms]
      rfl
  have hnonzero : LieNormalForm.nonzeroTerms p.terms = p.terms :=
    List.filter_eq_self.2 fun t ht => by simp [hp.terms.nonzero t ht]
  rw [hterms, zero_terms, foldl_insertTerm_nil hp.terms.sorted, hnonzero, ← hp.nvars_eq]
  rfl

theorem ofTerm (m : Monomial) (c : C) : (ofTerm m c).Canonical m.length :=
  (zero m.length).addTerm rfl c

theorem constant (n : ℕ) (c : C) : (constant n c).Canonical n := by
  have h := ofTerm (Monomial.one n) c
  rwa [Monomial.one_length] at h

theorem coordinate (n k : ℕ) : (coordinate n k : Poly C).Canonical n := by
  have h := ofTerm (Monomial.coordinate n k) (1 : C)
  rwa [Monomial.coordinate_length] at h

theorem addTerms (hp : p.Canonical n) {ts : List (Term C)} (h : p.addTerms ts = .ok q) :
    q.Canonical n := by
  induction ts generalizing p with
  | nil =>
    cases h
    exact hp
  | cons t ts ih =>
    simp only [Poly.addTerms] at h
    split at h
    · rename_i hlength
      exact ih (hp.addTerm (hlength.trans hp.nvars_eq) t.2) h
    · cases h

theorem add (hp : p.Canonical n) (hq : q.Canonical n) : (p + q).Canonical n :=
  ⟨hp.nvars_eq, hp.terms.mergeTerms hq.terms.sorted hq.terms.length⟩

theorem neg [NegatesZero C] (h : p.Canonical n) : (-p).Canonical n := by
  refine ⟨h.nvars_eq, h.terms.sorted.mapCoefficients _, ?_, h.terms.length_mapCoefficients _⟩
  intro t ht
  obtain ⟨s, hs, rfl⟩ := List.mem_map.1 ht
  rw [NegatesZero.isZero_neg, h.terms.nonzero s hs]

theorem sub (hp : p.Canonical n) (hq : q.Canonical n) : (p - q).Canonical n :=
  ⟨hp.nvars_eq, hp.terms.mergeTerms (hq.terms.sorted.mapCoefficients _)
    (hq.terms.length_mapCoefficients _)⟩

theorem scale (h : p.Canonical n) (c : C) : (p.scale c).Canonical n := by
  unfold Poly.scale
  split
  · rw [h.nvars_eq]
    exact zero n
  · exact ⟨h.nvars_eq, h.terms.mapCoefficients fun d => d * c⟩

theorem filterTerms (h : p.Canonical n) (keep : Monomial → Bool) :
    (p.filterTerms keep).Canonical n := ⟨h.nvars_eq, h.terms.filter _⟩

theorem removeTerm (h : p.Canonical n) (m : Monomial) : (p.removeTerm m).Canonical n :=
  ⟨h.nvars_eq, h.terms.filter _⟩

theorem row_length (hq : q.Canonical n) {x : Term C} (hx : x.1.length = n)
    (limit : Option ℕ) : ∀ t ∈ row x limit q.terms, t.1.length = n := by
  intro t ht
  obtain ⟨s, hs, rfl⟩ := List.mem_map.1 ht
  have hslen := hq.terms.length s (List.mem_of_mem_filter hs)
  rw [Monomial.product_length (hx.trans hslen.symm), hx]

theorem row_sorted (hq : q.Canonical n) {x : Term C} (hx : x.1.length = n)
    (limit : Option ℕ) : Sorted (row x limit q.terms) := by
  rw [sorted_iff_pairwise, row, List.pairwise_map]
  have hsorted := ((sorted_iff_pairwise _).1 hq.terms.sorted).filter
    fun y => within limit (x.1.degree + y.1.degree)
  refine hsorted.imp_of_mem fun hs ht hst => ?_
  have hslen := hq.terms.length _ (List.mem_of_mem_filter hs)
  have htlen := hq.terms.length _ (List.mem_of_mem_filter ht)
  rwa [Monomial.order_product (hslen.trans hx.symm) (htlen.trans hx.symm)]

theorem mulWithin (hp : p.Canonical n) (hq : q.Canonical n) (limit : Option ℕ) :
    (p.mulWithin q limit).Canonical n := by
  refine ⟨hp.nvars_eq, ?_⟩
  rw [mulWithin_terms]
  have hlen := hp.terms.length
  have hfold : ∀ (xs acc : List (Term C)), (∀ t ∈ xs, t.1.length = n) → CanonicalTerms n acc →
      CanonicalTerms n (xs.foldl (fun acc x => mergeTerms acc (row x limit q.terms)) acc) := by
    intro xs
    induction xs with
    | nil => exact fun _ _ hacc => hacc
    | cons x xs ih =>
      intro acc hxs hacc
      obtain ⟨hx, hxs⟩ := List.forall_mem_cons.1 hxs
      exact ih _ hxs (hacc.mergeTerms (row_sorted hq hx limit) (row_length hq hx limit))
  exact hfold _ _ hlen (.nil n)

theorem mul (hp : p.Canonical n) (hq : q.Canonical n) : (p * q).Canonical n :=
  hp.mulWithin hq none

theorem powLoop {budget e : ℕ} {result base : Poly C} (hresult : result.Canonical n)
    (hbase : base.Canonical n) : (powLoop budget e result base).Canonical n := by
  induction budget generalizing e result base with
  | zero => exact hresult
  | succ budget ih =>
    have hnext : (if e % 2 = 1 then result * base else result).Canonical n := by
      split
      · exact hresult.mul hbase
      · exact hresult
    rw [Poly.powLoop]
    split
    · exact hresult
    · dsimp only
      split
      · exact hnext
      · exact ih hnext (hbase.mul hbase)

theorem pow (h : p.Canonical n) (e : ℕ) : (p.pow e).Canonical n := by
  unfold Poly.pow
  rw [h.nvars_eq]
  exact (constant n 1).powLoop h

theorem derivative (h : p.Canonical n) (k : ℕ) : (p.derivative k).Canonical n := by
  refine ⟨h.nvars_eq, .nonzeroTerms ?_ ?_⟩
  · rw [sorted_iff_pairwise, List.pairwise_filterMap]
    refine ((sorted_iff_pairwise _).1 h.terms.sorted).imp fun hst s' hs' t' ht' => ?_
    obtain ⟨m, hm, rfl⟩ := Option.map_eq_some_iff.1 hs'
    obtain ⟨m', hm', rfl⟩ := Option.map_eq_some_iff.1 ht'
    rwa [Monomial.order_lower? hm hm']
  · intro t ht
    obtain ⟨s, hs, hst⟩ := List.mem_filterMap.1 ht
    obtain ⟨m, hm, rfl⟩ := Option.map_eq_some_iff.1 hst
    rw [Monomial.lower?_length hm, h.terms.length s hs]

theorem powerWithin (h : p.Canonical n) (limit : Option ℕ) (e : ℕ) :
    (p.powerWithin limit e).Canonical n := by
  induction e with
  | zero =>
    rw [Poly.powerWithin, h.nvars_eq]
    exact constant n 1
  | succ e ih => exact ih.mulWithin h limit

theorem timesPowers (h : p.Canonical n) (limit : Option ℕ) (m : Monomial) {images : List (Poly C)}
    (hi : ∀ g ∈ images, g.Canonical n) : (p.timesPowers limit m images).Canonical n := by
  unfold Poly.timesPowers
  have hzip : ∀ eg ∈ List.zip m images, eg.2.Canonical n :=
    fun eg heg => hi _ (List.of_mem_zip heg).2
  revert hzip
  generalize List.zip m images = egs
  intro hzip
  induction egs generalizing p with
  | nil => exact h
  | cons eg egs ih =>
    obtain ⟨heg, hegs⟩ := List.forall_mem_cons.1 hzip
    refine ih ?_ hegs
    dsimp only
    split
    · exact h
    · exact h.mulWithin (heg.powerWithin limit eg.1) limit

theorem foldl_timesPowers (limit : Option ℕ) {images : List (Poly C)}
    (hi : ∀ g ∈ images, g.Canonical n) (ts : List (Term C)) {out : Poly C}
    (hout : out.Canonical n) :
    (ts.foldl (fun out t => out + (Poly.constant n t.2).timesPowers limit t.1 images)
      out).Canonical n := by
  induction ts generalizing out with
  | nil => exact hout
  | cons t ts ih => exact ih (hout.add ((constant n t.2).timesPowers limit t.1 hi))

theorem substituteWithin {images : List (Poly C)} {limit : Option ℕ}
    (hi : ∀ g ∈ images, g.Canonical g.nvars) (h : p.substituteWithin images limit = .ok q) :
    q.Canonical q.nvars := by
  unfold Poly.substituteWithin at h
  split at h
  · cases h
  dsimp only at h
  split at h
  · cases h
  rename_i hvars
  cases h
  rw [Expansion.expand_value]
  refine (foldl_timesPowers limit (fun g hg => ?_) _ (.zero _)).at_nvars
  have hg' := List.find?_eq_none.1 hvars g hg
  have hn : g.nvars = (images.head?.map Poly.nvars).getD 0 := by simpa using hg'
  exact hn ▸ hi g hg

end Canonical

end Poly

end LieNormalForm
