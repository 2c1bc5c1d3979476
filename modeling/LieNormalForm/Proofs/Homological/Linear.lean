import LieNormalForm.Proofs.LieSeries.Fields

/-!
# Brackets with a linear field

The bracket of a linear field with a field, coefficient by coefficient. In front of `x^α` in
component `k` a diagonal linear field multiplies by its gap `λ_k − Σ_j α_j·λ_j`; a triangular
one does so where no lighter term of the component and no later component stands in the way.
-/

noncomputable section

open Finset MvPolynomial

namespace LieNormalForm

variable {C W : Type} [Weight W] [ExactField C W]

/-- `Σ_j j·α_j`. -/
def heft (s : ℕ →₀ ℕ) : ℕ := Finsupp.weight (fun j : ℕ => j) s

theorem heft_add_single (s : ℕ →₀ ℕ) (j : ℕ) : heft (s + Finsupp.single j 1) = heft s + j := by
  rw [heft, heft, map_add, Finsupp.weight_single, smul_eq_mul, one_mul]

/-- The coefficient of variable `j` in function `k`. -/
def slope (A : Sequence C) (k j : ℕ) : C := coeff (Finsupp.single j 1) (A k)

/-- `Σ_j α_j·λ_j`, with the diagonal of the linear field. -/
def rate (A : Sequence C) (s : ℕ →₀ ℕ) : C := s.sum fun j e => (e : C) * slope A j j

/-- `λ_k − Σ_j α_j·λ_j`. -/
def gap (A : Sequence C) (k : ℕ) (s : ℕ →₀ ℕ) : C := slope A k k - rate A s

theorem exists_eq_single {s : ℕ →₀ ℕ} (h : s.degree = 1) : ∃ j, s = Finsupp.single j 1 := by
  have hrange : s ∈ Set.range fun j : ℕ => Finsupp.single j (1 : ℕ) := by
    rw [Finsupp.range_single_one]
    exact h
  obtain ⟨j, rfl⟩ := hrange
  exact ⟨j, rfl⟩

section Linear

variable {A : Sequence C} (hA : A ∈ homogeneous 1)
include hA

theorem exists_eq_single_of_coeff_ne_zero {k : ℕ} {s : ℕ →₀ ℕ} (h : coeff s (A k) ≠ 0) :
    ∃ j, s = Finsupp.single j 1 := by
  refine exists_eq_single ?_
  by_contra hs
  exact h ((mem_homogeneous.1 hA k).coeff_eq_zero hs)

theorem pderiv_linear (k j : ℕ) : pderiv j (A k) = MvPolynomial.C (slope A k j) := by
  have hzero : (pderiv j (A k)).IsHomogeneous 0 := (mem_homogeneous.1 hA k).pderiv
  rw [← totalDegree_zero_iff_isHomogeneous, totalDegree_eq_zero_iff_eq_C] at hzero
  rw [hzero, coeff_pderiv, zero_add, Finsupp.coe_zero, Pi.zero_apply, Nat.cast_zero, zero_add,
    mul_one, slope]

theorem coeff_along_linear {n k : ℕ} (hvars : ∀ j ∈ (A k).vars, j < n) (Y : Sequence C)
    (s : ℕ →₀ ℕ) :
    coeff s (along Y (A k)) = ∑ j ∈ range n, slope A k j * coeff s (Y j) := by
  rw [along_eq_sum hvars, coeff_sum]
  refine sum_congr rfl fun j _ => ?_
  rw [pderiv_linear hA, coeff_C_mul]

/-- Only the diagonal slope of a linear function reaches a monomial, if the ones that the other
slopes lead from do not occur. -/
theorem coeff_pderiv_mul_linear {p : MvPolynomial ℕ C} {s : ℕ →₀ ℕ} {j : ℕ}
    (hoff : ∀ i, i ≠ j → slope A j i ≠ 0 → ∀ r : ℕ →₀ ℕ,
      r + Finsupp.single i 1 = s + Finsupp.single j 1 → coeff r p = 0) :
    coeff s (pderiv j p * A j) = (s j : C) * slope A j j * coeff s p := by
  have hterm : ∀ x ∈ antidiagonal s, x.2 ≠ Finsupp.single j 1 →
      coeff x.1 (pderiv j p) * coeff x.2 (A j) = 0 := by
    intro x hx hne
    by_cases hzero : coeff x.2 (A j) = 0
    · rw [hzero, mul_zero]
    · obtain ⟨i, hi⟩ := exists_eq_single_of_coeff_ne_zero hA hzero
      have hij : i ≠ j := by
        rintro rfl
        exact hne hi
      have hsum := HasAntidiagonal.mem_antidiagonal.1 hx
      have hslope : slope A j i ≠ 0 := by
        rw [slope, ← hi]
        exact hzero
      rw [coeff_pderiv, hoff i hij hslope, zero_mul, zero_mul]
      rw [← hsum, hi]
      abel
  rw [coeff_mul]
  by_cases hs : s j = 0
  · rw [hs, Nat.cast_zero, zero_mul, zero_mul]
    refine sum_eq_zero fun x hx => hterm x hx ?_
    intro hx₂
    have hsum := HasAntidiagonal.mem_antidiagonal.1 hx
    rw [← hsum, hx₂, Finsupp.add_apply, Finsupp.single_eq_same] at hs
    omega
  · have hle : Finsupp.single j 1 ≤ s := Finsupp.single_le_iff.2 (by omega)
    have hmem : (s - Finsupp.single j 1, Finsupp.single j 1) ∈ antidiagonal s :=
      HasAntidiagonal.mem_antidiagonal.2 (tsub_add_cancel_of_le hle)
    rw [sum_eq_single_of_mem _ hmem fun x hx hne => hterm x hx ?_]
    · dsimp only
      have hcast : (((s - Finsupp.single j 1 : ℕ →₀ ℕ) j : ℕ) : C) + 1 = s j := by
        rw [Finsupp.tsub_apply, Finsupp.single_eq_same, ← Nat.cast_succ, Nat.succ_eq_add_one,
          Nat.sub_add_cancel (by omega)]
      rw [coeff_pderiv, tsub_add_cancel_of_le hle, hcast, slope]
      ring
    · intro hx₂
      refine hne (Prod.ext ?_ hx₂)
      have hsum := HasAntidiagonal.mem_antidiagonal.1 hx
      rw [← hsum, hx₂, add_tsub_cancel_right]

theorem coeff_along_of_linear {p : MvPolynomial ℕ C} {s : ℕ →₀ ℕ}
    (hoff : ∀ j i, i ≠ j → slope A j i ≠ 0 → ∀ r : ℕ →₀ ℕ,
      r + Finsupp.single i 1 = s + Finsupp.single j 1 → coeff r p = 0) :
    coeff s (along A p) = rate A s * coeff s p := by
  have hvars : ∀ k ∈ p.vars, k < (p.vars ∪ s.support).sup id + 1 := fun k hk =>
    Nat.lt_succ_of_le (le_sup (f := id) (mem_union_left _ hk))
  have hsupport : s.support ⊆ range ((p.vars ∪ s.support).sup id + 1) := fun k hk =>
    mem_range.2 (Nat.lt_succ_of_le (le_sup (f := id) (mem_union_right _ hk)))
  rw [along_eq_sum hvars, coeff_sum, rate,
    Finsupp.sum_of_support_subset s hsupport _ fun j _ => by rw [Nat.cast_zero, zero_mul], sum_mul]
  exact sum_congr rfl fun j _ => coeff_pderiv_mul_linear hA (hoff j)

end Linear

section Parts

variable {A : Sequence C} (hA : A ∈ homogeneous 1)
include hA

theorem part_derive_linear (Y : Sequence C) (d : ℕ) :
    part d (derive Y A) = derive (part d Y) A := by
  funext k
  have hvars : ∀ j ∈ (A k).vars, j < (A k).vars.sup id + 1 := fun j hj =>
    Nat.lt_succ_of_le (le_sup (f := id) hj)
  rw [part_apply, derive_apply, derive_apply, along_eq_sum hvars, along_eq_sum hvars, map_sum]
  refine sum_congr rfl fun j _ => ?_
  rw [pderiv_linear hA, homogeneousComponent_C_mul, part_apply]

theorem derive_linear_part (Y : Sequence C) (d : ℕ) :
    part d (derive A Y) = derive A (part d Y) := by
  have hconstant : part 0 A = 0 := by rw [part_of_mem hA, if_neg (by omega)]
  funext k
  rw [part_apply, derive_apply, derive_apply, homogeneousComponent_along hconstant]
  refine (sum_eq_single (0, d) (fun p hp hne => ?_) fun hnot => ?_).trans ?_
  · have hsum := HasAntidiagonal.mem_antidiagonal.1 hp
    have hpos : p.1 ≠ 0 := by
      intro hzero
      exact hne (Prod.ext hzero (by dsimp only; omega))
    rw [part_of_mem hA, if_neg (by omega), along_zero, Derivation.zero_apply]
  · exact absurd (HasAntidiagonal.mem_antidiagonal.2 (Nat.zero_add d)) hnot
  · rw [part_eq_self hA]
    rfl

theorem part_bracket_linear (Y : Sequence C) (d : ℕ) :
    part d (LieOperator.bracket.act A Y) = LieOperator.bracket.act A (part d Y) := by
  rw [LieOperator.act_bracket, LieOperator.act_bracket, map_sub, part_derive_linear hA,
    derive_linear_part hA]

end Parts

/-- A linear field without coefficients beside the diagonal. -/
structure Diagonal (A : Sequence C) : Prop where
  linear : A ∈ homogeneous 1
  off : ∀ j i, i ≠ j → slope A j i = 0

/-- A linear field without coefficients below the diagonal. -/
structure Triangular (A : Sequence C) : Prop where
  linear : A ∈ homogeneous 1
  below : ∀ j i, i < j → slope A j i = 0

theorem Diagonal.triangular {A : Sequence C} (h : Diagonal A) : Triangular A :=
  ⟨h.linear, fun j i hij => h.off j i hij.ne⟩

section Bracket

variable {A Y : Sequence C} {n : ℕ} (hvars : ∀ k, ∀ j ∈ (A k).vars, j < n)
  (hY : ∀ k, n ≤ k → Y k = 0)
include hvars hY

theorem coeff_along_linear_single (hA : A ∈ homogeneous 1) {k : ℕ}
    (honly : ∀ j, j ≠ k → slope A k j = 0 ∨ Y j = 0) (s : ℕ →₀ ℕ) :
    coeff s (along Y (A k)) = slope A k k * coeff s (Y k) := by
  rw [coeff_along_linear hA (hvars k)]
  refine sum_eq_single k (fun j _ hj => ?_) fun hk => ?_
  · rcases honly j hj with h | h
    · rw [h, zero_mul]
    · rw [h, coeff_zero, mul_zero]
  · rw [mem_range, not_lt] at hk
    rw [hY k hk, coeff_zero, mul_zero]

theorem Diagonal.coeff_bracket (h : Diagonal A) (k : ℕ) (s : ℕ →₀ ℕ) :
    coeff s ((derive Y A - derive A Y) k) = gap A k s * coeff s (Y k) := by
  have hfirst := coeff_along_linear_single hvars hY h.linear
    (fun j hj => Or.inl (h.off k j hj)) s
  have hsecond : coeff s (along A (Y k)) = rate A s * coeff s (Y k) :=
    coeff_along_of_linear h.linear fun j i hij hslope => absurd (h.off j i hij) hslope
  rw [Pi.sub_apply, derive_apply, derive_apply, coeff_sub, hfirst, hsecond, gap, sub_mul]

/-- The bracket at a lightest monomial of the last component that is not zero. -/
theorem Triangular.coeff_bracket (h : Triangular A) {k : ℕ} {s : ℕ →₀ ℕ}
    (hlater : ∀ j, k < j → Y j = 0) (hlighter : ∀ r, heft r < heft s → coeff r (Y k) = 0) :
    coeff s ((derive Y A - derive A Y) k) = gap A k s * coeff s (Y k) := by
  have hfirst := coeff_along_linear_single hvars hY h.linear (k := k) (fun j hj => ?_) s
  · have hsecond : coeff s (along A (Y k)) = rate A s * coeff s (Y k) := by
      refine coeff_along_of_linear h.linear fun j i hij hslope r hr => hlighter r ?_
      have hlt : j < i := by
        by_contra hle
        exact hslope (h.below j i (by omega))
      have hheft := congrArg heft hr
      rw [heft_add_single, heft_add_single] at hheft
      omega
    rw [Pi.sub_apply, derive_apply, derive_apply, coeff_sub, hfirst, hsecond, gap, sub_mul]
  · rcases Nat.lt_or_gt_of_ne hj with hlt | hgt
    · exact Or.inl (h.below k j hlt)
    · exact Or.inr (hlater j hgt)

theorem Triangular.bracket_eq_zero (h : Triangular A) {k : ℕ} (hlater : ∀ j, k ≤ j → Y j = 0) :
    (derive Y A - derive A Y) k = 0 := by
  ext s
  rw [h.coeff_bracket hvars hY (fun j hj => hlater j hj.le), hlater k le_rfl, coeff_zero, mul_zero]
  intro r _
  rw [hlater k le_rfl, coeff_zero]

end Bracket

/-- The bracket with a single term, at this term. -/
theorem Triangular.coeff_bracket_single {A : Sequence C} {n k : ℕ}
    (hvars : ∀ k, ∀ j ∈ (A k).vars, j < n) (h : Triangular A) (hk : k < n) (s : ℕ →₀ ℕ) (c : C) :
    coeff s ((derive (Pi.single k (monomial s c)) A - derive A (Pi.single k (monomial s c))) k) =
      gap A k s * c := by
  have hlater : ∀ j, k < j → (Pi.single k (monomial s c) : Sequence C) j = 0 :=
    fun j hj => Pi.single_eq_of_ne (by omega) _
  rw [h.coeff_bracket hvars (fun j hj => hlater j (by omega)) hlater]
  · rw [Pi.single_eq_same, coeff_monomial, if_pos rfl]
  · intro r hr
    rw [Pi.single_eq_same, coeff_monomial, if_neg]
    rintro rfl
    exact lt_irrefl _ hr

end LieNormalForm

end
