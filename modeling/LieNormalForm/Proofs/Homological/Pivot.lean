import LieNormalForm.Proofs.Support.Tuple
import LieNormalForm.Proofs.Homological.Split

/-!
# Where a bracket with a single term has terms

The bracket of a linear field with `c·x^α` in component `k` exchanges one variable of `x^α` for
another, or passes the term on to another component. If the linear field is diagonal, nothing but
`x^α` in component `k` can come up; if it is upper triangular, component `k` has only `x^α` and
heavier monomials. Rounding does not matter: this is about which monomials occur at all.
-/

namespace LieNormalForm

namespace Monomial

theorem weightFrom_product (j : ℕ) {m k : Monomial} (h : m.length = k.length) :
    weightFrom j (m.product k) = weightFrom j m + weightFrom j k := by
  induction m generalizing j k with
  | nil => simp [product, weightFrom, List.length_eq_zero_iff.1 h.symm]
  | cons a m ih =>
    obtain ⟨b, k, rfl⟩ := List.exists_cons_of_length_eq_add_one h.symm
    have hrest := ih (j + 1) (Nat.succ.inj h)
    simp only [product, List.zipWith_cons_cons, weightFrom] at hrest ⊢
    rw [hrest]
    ring

theorem coordinate_zero (n : ℕ) : coordinate (n + 1) 0 = 1 :: one n := by
  rw [coordinate, List.range_succ_eq_map, List.map_cons, List.map_map, if_pos rfl, one]
  refine congrArg (1 :: ·) (List.eq_replicate_iff.2 ⟨by simp, fun e he => ?_⟩)
  obtain ⟨j, -, rfl⟩ := List.mem_map.1 he
  rfl

theorem coordinate_succ (n k : ℕ) : coordinate (n + 1) (k + 1) = 0 :: coordinate n k := by
  simp [coordinate, List.range_succ_eq_map]

theorem weightFrom_one (j n : ℕ) : weightFrom j (one n) = 0 := by
  induction n generalizing j with
  | zero => rfl
  | succ n ih =>
    rw [one, List.replicate_succ, weightFrom, Nat.mul_zero, Nat.zero_add]
    exact ih (j + 1)

theorem weightFrom_coordinate {n k : ℕ} (hk : k < n) (j : ℕ) :
    weightFrom j (coordinate n k) = j + k := by
  induction k generalizing n j with
  | zero =>
    obtain ⟨n, rfl⟩ := Nat.exists_eq_add_one.2 hk
    simp [coordinate_zero, weightFrom, weightFrom_one]
  | succ k ih =>
    obtain ⟨n, rfl⟩ := Nat.exists_eq_add_one.2 (Nat.zero_lt_of_lt hk)
    rw [coordinate_succ, weightFrom, ih (by omega)]
    omega

theorem weight_product_coordinate {n k : ℕ} {m : Monomial} (hm : m.length = n) (hk : k < n) :
    weight (m.product (coordinate n k)) = weight m + k := by
  rw [weight, weightFrom_product 0 (hm.trans (coordinate_length n k).symm),
    weightFrom_coordinate hk, Nat.zero_add, weight]

/-- Exchanging a variable for a later one makes a monomial heavier. -/
theorem weight_lt_of_exchange {n j l : ℕ} {m m' : Monomial} (hm : m.length = n)
    (h : m.lower? j = some m') (hj : j < l) (hl : l < n) :
    weight m < weight (m'.product (coordinate n l)) := by
  have hlength : m'.length = n := (lower?_length h).trans hm
  have hback := weight_product_coordinate hlength (Nat.lt_trans hj hl)
  rw [product_coordinate_of_lower? hm h] at hback
  rw [weight_product_coordinate hlength hl]
  omega

end Monomial

open Monomial

variable {C W : Type} [Coefficient C W] {n : ℕ} {A : Tuple C}

namespace Tuple

section Linear

theorem Shaped.lt_of_mem (hA : A.Shaped n n) {i : ℕ} {t : Term C}
    (ht : t ∈ (A.component i).terms) : i < n := by
  by_contra hle
  rw [component_of_size_le (by rw [hA.size_eq]; omega)] at ht
  cases ht

theorem linearPart_entry_of_mem (hA : A.Shaped n n) {i j : ℕ} (hj : j < n) {t : Term C}
    (ht : t ∈ (A.component i).terms) (hcoordinate : t.1 = coordinate n j) :
    A.linearPart.entry i j = t.2 := by
  rw [linearPart, CoeffMatrix.ofFn_entry _ (by rw [hA.size_eq]; exact hA.lt_of_mem ht)
    (by rwa [hA.nvars_eq]), hA.nvars_eq, ← hcoordinate, Poly.coefficient_of_mem (hA.component i) ht]

/-- The matrix has an entry wherever the field has a coordinate. -/
theorem linearPart_entry_nonzero (hA : A.Shaped n n) {i j : ℕ} (hj : j < n) {t : Term C}
    (ht : t ∈ (A.component i).terms) (hcoordinate : t.1 = coordinate n j) :
    Coefficient.isZero (A.linearPart.entry i j) = false := by
  rw [linearPart_entry_of_mem hA hj ht hcoordinate]
  exact (hA.component i).terms.nonzero t ht

/-- A linear field has coordinates where its matrix has entries. -/
theorem Graded.supported_linear (hA : A.Shaped n n) (hlinear : A.Graded n n 1)
    {P : ℕ → ℕ → Prop}
    (h : ∀ i < n, ∀ j < n, ¬P i j → Coefficient.isZero (A.linearPart.entry i j) = true) :
    A.Supported fun i m => ∃ j < n, P i j ∧ m = coordinate n j := by
  intro i t ht
  obtain ⟨j, hj, hcoordinate⟩ := exists_coordinate (hlinear.supported i t ht)
  refine ⟨j, hj, ?_, hcoordinate⟩
  by_contra hP
  have hzero := h i (hA.lt_of_mem ht) j hj hP
  rw [linearPart_entry_nonzero hA hj ht hcoordinate] at hzero
  cases hzero

theorem IsDiagonal.supported (hA : A.Shaped n n) (hlinear : A.Graded n n 1) (h : A.IsDiagonal) :
    A.Supported fun i m => m = coordinate n i := by
  refine (Graded.supported_linear hA hlinear (P := fun i j => j = i) ?_).imp ?_
  · exact fun i hi j hj hij => h i (by rwa [hA.size_eq]) j (by rwa [hA.nvars_eq]) hij
  · rintro i m ⟨j, -, rfl, rfl⟩
    rfl

theorem isUpperTriangular_iff :
    A.isUpperTriangular = true ↔ ∀ i < A.size, ∀ j < A.nvars, j < i →
      Coefficient.isZero (A.linearPart.entry i j) = true := by
  simp only [isUpperTriangular, List.all_eq_true, List.mem_range, linearPart_nrows,
    linearPart_ncols, lt_min_iff]
  exact ⟨fun h i hi j hj hij => h i hi j ⟨hij, hj⟩, fun h i hi j hj => h i hi j hj.2 hj.1⟩

theorem isUpperTriangular_eq_false (hA : A.Shaped n n) :
    A.isUpperTriangular = false ↔ ∃ i < n, ∃ j < i,
      Coefficient.isZero (A.linearPart.entry i j) = false := by
  rw [← Bool.not_eq_true, isUpperTriangular_iff, hA.size_eq, hA.nvars_eq]
  push Not
  constructor
  · rintro ⟨i, hi, j, -, hij, hentry⟩
    exact ⟨i, hi, j, hij, eq_false_of_ne_true hentry⟩
  · rintro ⟨i, hi, j, hij, hentry⟩
    exact ⟨i, hi, j, hij.trans hi, hij, ne_true_of_eq_false hentry⟩

theorem IsDiagonal.isUpperTriangular (h : A.IsDiagonal) : A.isUpperTriangular = true :=
  isUpperTriangular_iff.2 fun i hi j hj hij => h i hi j hj hij.ne

theorem supported_of_isUpperTriangular (hA : A.Shaped n n) (hlinear : A.Graded n n 1)
    (h : A.isUpperTriangular = true) :
    A.Supported fun i m => ∃ j < n, i ≤ j ∧ m = coordinate n j := by
  refine Graded.supported_linear hA hlinear fun i hi j hj hij => ?_
  exact isUpperTriangular_iff.1 h i (by rwa [hA.size_eq]) j (by rwa [hA.nvars_eq]) (by omega)

end Linear

section Bracket

theorem single_supported (len k : ℕ) (m : Monomial) (c : C) :
    (single len k (Poly.ofTerm m c)).Supported fun i m' => i = k ∧ m' = m :=
  (Supported.zeros len _).modify k fun _ => .ofTerm ⟨rfl, rfl⟩ c

variable {m : Monomial} (hm : m.length = n) (len k : ℕ) (c : C)
include hm

theorem bracket_single_diagonal (hA : A.Supported fun i m => m = coordinate n i) :
    (A.bracket (single len k (Poly.ofTerm m c))).Supported fun i m' => i = k ∧ m' = m := by
  refine hA.bracket (single_supported len k m c) ?_ ?_
  · rintro i j a a' b rfl hlower ⟨rfl, rfl⟩
    obtain ⟨rfl, rfl⟩ := lower?_coordinate hlower
    exact ⟨rfl, one_product hm⟩
  · rintro i j a a' b ⟨rfl, rfl⟩ hlower rfl
    exact ⟨rfl, product_coordinate_of_lower? hm hlower⟩

theorem bracket_single_triangular
    (hA : A.Supported fun i m => ∃ j < n, i ≤ j ∧ m = coordinate n j) :
    (A.bracket (single len k (Poly.ofTerm m c))).Supported fun i m' =>
      i = k → m' = m ∨ m.weight < m'.weight := by
  refine hA.bracket (single_supported len k m c) ?_ ?_
  · rintro i j a a' b ⟨l, -, -, rfl⟩ hlower ⟨rfl, rfl⟩ -
    obtain ⟨rfl, rfl⟩ := lower?_coordinate hlower
    exact .inl (one_product hm)
  · rintro i j a a' b ⟨rfl, rfl⟩ hlower ⟨l, hl, hjl, rfl⟩ -
    rcases hjl.eq_or_lt with rfl | hlt
    · exact .inl (product_coordinate_of_lower? hm hlower)
    · exact .inr (weight_lt_of_exchange hm hlower hlt hl)

end Bracket

/-- Subtracting terms at one monomial of a component does not show once this monomial is
removed there. -/
theorem modify_removeTerm_sub {f g : Tuple C} {k : ℕ} {m : Monomial} (hsize : g.size = f.size)
    (hk : k < f.size) (hg : g.Supported fun i m' => i = k ∧ m' = m) :
    ((f - g).modify k fun p => p.removeTerm m) = f.modify k fun p => p.removeTerm m := by
  have hsub : (f - g).size = f.size := sub_size f g
  refine ext_component ?_ rfl fun i hi => ?_
  · exact (List.length_modify ..).trans (hsub.trans (List.length_modify ..).symm)
  have hi : i < f.size := by
    rwa [Tuple.size, Tuple.modify, List.length_modify, ← Tuple.size, hsub] at hi
  rw [component_modify (by rwa [hsub]), component_modify hk, component_sub hsize hk,
    component_sub hsize hi]
  split
  · rw [Poly.removeTerm_eq_filterTerms, Poly.filterTerms_sub fun t ht => ?_]
    · rfl
    · simp [(hg k t ht).2]
  · rename_i hne
    have hnone : (g.component i).Supported fun _ => False := fun t ht => hne (hg i t ht).1
    exact Poly.sub_eq_self (Poly.terms_eq_nil_of_supported hnone)

end Tuple

end LieNormalForm
