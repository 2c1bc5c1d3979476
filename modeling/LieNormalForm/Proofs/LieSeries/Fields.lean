import LieNormalForm.Proofs.LieSeries.Transport
import LieNormalForm.Proofs.Value.Tuple

/-!
# Homogeneous parts of fields

A generator acts through its homogeneous parts: the part of degree `j + 2` raises degrees by
`j + 1`. The parts of a product and of a directional derivative are convolutions of parts, and
the operators of a generator act on both as derivations.
-/

noncomputable section

open Finset LieNormalForm.LieSeries

namespace LieNormalForm

variable {C W : Type} [Weight W] [ExactField C W]

/-- Sequences whose members are homogeneous of one degree. -/
def homogeneous (d : ℕ) : Submodule C (Sequence C) :=
  Submodule.pi Set.univ fun _ => MvPolynomial.homogeneousSubmodule ℕ C d

theorem mem_homogeneous {d : ℕ} {f : Sequence C} :
    f ∈ homogeneous d ↔ ∀ k, (f k).IsHomogeneous d := by
  rw [homogeneous, Submodule.mem_pi]
  exact ⟨fun h k => h k (Set.mem_univ k), fun h k _ => h k⟩

theorem part_mem (d : ℕ) (f : Sequence C) : part d f ∈ homogeneous d :=
  mem_homogeneous.2 fun _ => MvPolynomial.homogeneousComponent_isHomogeneous _ _

theorem part_of_mem {d : ℕ} {f : Sequence C} (h : f ∈ homogeneous d) (e : ℕ) :
    part e f = if e = d then f else 0 := by
  funext k
  rw [part_apply, MvPolynomial.homogeneousComponent_of_mem (mem_homogeneous.1 h k)]
  split <;> rfl

theorem part_eq_self {d : ℕ} {f : Sequence C} (h : f ∈ homogeneous d) : part d f = f := by
  rw [part_of_mem h, if_pos rfl]

/-- The series of parts from degree `e` on. -/
def parts (e : ℕ) (f : Sequence C) (i : ℕ) : Sequence C := part (i + e) f

theorem parts_mem (e : ℕ) (f : Sequence C) (i : ℕ) : parts e f i ∈ homogeneous (i + e) :=
  part_mem _ _

theorem part_sum {s : ℕ → Sequence C} {e : ℕ} (hs : ∀ i, s i ∈ homogeneous (i + e)) (n d : ℕ) :
    part (d + e) (∑ i ∈ range n, s i) = if d < n then s d else 0 := by
  rw [map_sum]
  split
  · rename_i hd
    rw [sum_eq_single d]
    · exact part_eq_self (hs d)
    · intro i _ hi
      rw [part_of_mem (hs i), if_neg (by omega)]
    · exact fun hnot => absurd (mem_range.2 hd) hnot
  · rename_i hd
    refine sum_eq_zero fun i hi => ?_
    have hlt := mem_range.1 hi
    rw [part_of_mem (hs i), if_neg (by omega)]

theorem part_sum_of_lt {s : ℕ → Sequence C} {e : ℕ} (hs : ∀ i, s i ∈ homogeneous (i + e)) (n : ℕ)
    {d : ℕ} (hd : d < e) : part d (∑ i ∈ range n, s i) = 0 := by
  rw [map_sum]
  refine sum_eq_zero fun i _ => ?_
  rw [part_of_mem (hs i), if_neg (by omega)]

theorem isHomogeneous_along {w : Sequence C} {d e : ℕ} (hw : w ∈ homogeneous e)
    {a : MvPolynomial ℕ C} (ha : a.IsHomogeneous (d + 1)) : (along w a).IsHomogeneous (d + e) := by
  have hvars : ∀ k ∈ a.vars, k < a.vars.sup id + 1 := fun k hk =>
    Nat.lt_succ_of_le (le_sup (f := id) hk)
  rw [along_eq_sum hvars]
  exact MvPolynomial.IsHomogeneous.sum _ _ _ fun k _ => ha.pderiv.mul (mem_homogeneous.1 hw k)

theorem along_of_isHomogeneous_zero (w : Sequence C) {a : MvPolynomial ℕ C}
    (ha : a.IsHomogeneous 0) : along w a = 0 := by
  rw [← MvPolynomial.totalDegree_zero_iff_isHomogeneous,
    MvPolynomial.totalDegree_eq_zero_iff_eq_C] at ha
  rw [ha]
  exact MvPolynomial.derivation_C _ _

theorem derive_mem {w f : Sequence C} {j d : ℕ} (hw : w ∈ homogeneous (j + 2))
    (hf : f ∈ homogeneous d) : derive w f ∈ homogeneous (d + j + 1) := by
  refine mem_homogeneous.2 fun k => ?_
  rw [derive_apply]
  cases d with
  | zero =>
    rw [along_of_isHomogeneous_zero w (mem_homogeneous.1 hf k)]
    exact MvPolynomial.isHomogeneous_zero ℕ C _
  | succ d =>
    rw [show d + 1 + j + 1 = d + (j + 2) by omega]
    exact isHomogeneous_along hw (mem_homogeneous.1 hf k)

theorem LieOperator.act_mem (op : LieOperator) {w f : Sequence C} {j d : ℕ}
    (hw : w ∈ homogeneous (j + 2)) (hf : f ∈ homogeneous d) :
    op.act w f ∈ homogeneous (d + j + 1) := by
  have hright := derive_mem hw hf
  cases op with
  | bracket =>
    have hleft : derive f w ∈ homogeneous (d + j + 1) := by
      refine mem_homogeneous.2 fun k => ?_
      rw [derive_apply, show d + j + 1 = j + 1 + d by omega]
      exact isHomogeneous_along hf (mem_homogeneous.1 hw k)
    exact Submodule.sub_mem _ hleft hright
  | negatedDerivative => exact Submodule.neg_mem _ hright

/-- The operators of a generator, one for each of its parts from degree two on. -/
def LieOperator.family (op : LieOperator) (u : Sequence C) (j : ℕ) : Module.End C (Sequence C) :=
  op.act (part (j + 2) u)

theorem LieOperator.family_mem (op : LieOperator) (u : Sequence C) (j d : ℕ) (f : Sequence C)
    (hf : f ∈ homogeneous d) : op.family u j f ∈ homogeneous (d + j + 1) :=
  op.act_mem (part_mem _ _) hf

theorem homogeneousComponent_mul (a b : MvPolynomial ℕ C) (i : ℕ) :
    MvPolynomial.homogeneousComponent i (a * b) =
      convolve (LinearMap.mul C (MvPolynomial ℕ C))
        (fun d => MvPolynomial.homogeneousComponent d a)
        (fun d => MvPolynomial.homogeneousComponent d b) i := by
  let _ : GradedAlgebra (MvPolynomial.homogeneousSubmodule ℕ C) := MvPolynomial.gradedAlgebra
  have hpart (p : MvPolynomial ℕ C) (d : ℕ) :
      (DirectSum.decompose (MvPolynomial.homogeneousSubmodule ℕ C) p d : MvPolynomial ℕ C) =
        MvPolynomial.homogeneousComponent d p :=
    MvPolynomial.decomposition.decompose'_apply p d
  rw [← hpart, DirectSum.decompose_mul, DirectSum.coe_mul_apply_eq_sum_antidiagonal]
  exact sum_congr rfl fun p _ => congrArg₂ (· * ·) (hpart a p.1) (hpart b p.2)

theorem homogeneousComponent_mul_of_isHomogeneous {a : MvPolynomial ℕ C} {d : ℕ}
    (ha : a.IsHomogeneous d) (b : MvPolynomial ℕ C) (i : ℕ) :
    MvPolynomial.homogeneousComponent i (a * b) =
      if d ≤ i then a * MvPolynomial.homogeneousComponent (i - d) b else 0 := by
  rw [homogeneousComponent_mul, convolve]
  simp only [LinearMap.mul_apply', MvPolynomial.homogeneousComponent_of_mem ha]
  split
  · rename_i hd
    rw [sum_eq_single (d, i - d)]
    · rw [if_pos rfl]
    · intro p hp hne
      have hsum := HasAntidiagonal.mem_antidiagonal.1 hp
      rw [if_neg, zero_mul]
      intro hfst
      exact hne (Prod.ext hfst (by dsimp only; omega))
    · exact fun hnot => absurd (HasAntidiagonal.mem_antidiagonal.2 (by dsimp only; omega)) hnot
  · rename_i hd
    refine sum_eq_zero fun p hp => ?_
    have hsum := HasAntidiagonal.mem_antidiagonal.1 hp
    rw [if_neg (by omega), zero_mul]

theorem homogeneousComponent_along_of_isHomogeneous {w : Sequence C} (hw : part 0 w = 0)
    {a : MvPolynomial ℕ C} {d : ℕ} (ha : a.IsHomogeneous d) (i : ℕ) :
    MvPolynomial.homogeneousComponent i (along w a) =
      if d ≤ i then along (part (i - d + 1) w) a else 0 := by
  have hvars : ∀ k ∈ a.vars, k < a.vars.sup id + 1 := fun k hk =>
    Nat.lt_succ_of_le (le_sup (f := id) hk)
  cases d with
  | zero =>
    rw [along_of_isHomogeneous_zero w ha, along_of_isHomogeneous_zero _ ha, map_zero, ite_self]
  | succ d =>
    rw [along_eq_sum hvars, map_sum]
    split
    · rename_i hd
      rw [along_eq_sum hvars]
      refine sum_congr rfl fun k _ => ?_
      rw [homogeneousComponent_mul_of_isHomogeneous ha.pderiv, if_pos (by omega), part_apply,
        show i - (d + 1 - 1) = i - (d + 1) + 1 by omega]
    · rename_i hd
      refine sum_eq_zero fun k _ => ?_
      rw [homogeneousComponent_mul_of_isHomogeneous ha.pderiv]
      split
      · have hconstant := congrFun hw k
        rw [part_apply, Pi.zero_apply] at hconstant
        rw [show i - (d + 1 - 1) = 0 by omega, hconstant, mul_zero]
      · rfl

theorem sum_homogeneousComponent_of_lt {a : MvPolynomial ℕ C} {n : ℕ} (h : a.totalDegree < n) :
    ∑ d ∈ range n, MvPolynomial.homogeneousComponent d a = a := by
  refine (sum_subset (range_mono h) fun d _ hd => ?_).symm.trans
    (MvPolynomial.sum_homogeneousComponent a)
  exact MvPolynomial.homogeneousComponent_eq_zero d a (by rw [mem_range] at hd; omega)

theorem homogeneousComponent_along {w : Sequence C} (hw : part 0 w = 0) (a : MvPolynomial ℕ C)
    (i : ℕ) :
    MvPolynomial.homogeneousComponent i (along w a) =
      ∑ p ∈ antidiagonal i, along (part (p.1 + 1) w) (MvPolynomial.homogeneousComponent p.2 a) := by
  have hsum := sum_homogeneousComponent_of_lt (a := a) (n := max (a.totalDegree + 1) (i + 1))
    (by omega)
  rw [← Nat.sum_antidiagonal_swap, Nat.sum_antidiagonal_eq_sum_range_succ_mk]
  nth_rewrite 1 [← hsum]
  rw [map_sum, map_sum]
  have hparts : ∀ d, MvPolynomial.homogeneousComponent i
      (along w (MvPolynomial.homogeneousComponent d a)) =
        if d ≤ i then along (part (i - d + 1) w) (MvPolynomial.homogeneousComponent d a) else 0 :=
    fun d => homogeneousComponent_along_of_isHomogeneous hw
      (MvPolynomial.homogeneousComponent_isHomogeneous d a) i
  have hsubset : range (i + 1) ⊆ range (max (a.totalDegree + 1) (i + 1)) :=
    range_mono (le_max_right _ _)
  rw [← sum_subset hsubset]
  · refine sum_congr rfl fun d hd => ?_
    rw [hparts, if_pos (by rw [mem_range] at hd; omega)]
    rfl
  · intro d _ hd
    rw [hparts, if_neg (by rw [mem_range] at hd; omega)]

theorem part_derive {w : Sequence C} (hw : part 0 w = 0) (f : Sequence C) (i : ℕ) :
    part i (derive w f) = convolve derive (parts 1 w) (parts 0 f) i := by
  funext k
  rw [part_apply, derive_apply, homogeneousComponent_along hw, convolve, Finset.sum_apply]
  rfl

theorem along_along (v w : Sequence C) (a : MvPolynomial ℕ C) :
    along v (along w a) - along w (along v a) = along (derive v w - derive w v) a := by
  have h : ⁅along v, along w⁆ = along (derive v w - derive w v) := by
    refine MvPolynomial.derivation_ext fun k => ?_
    rw [Derivation.commutator_apply, along_X, along_X, along_X]
    rfl
  exact congrArg (fun D => D a) h

/-- The operators of a generator act on a directional derivative as on a product. -/
theorem negatedDerivative_family_derive (u : Sequence C) (j : ℕ) (v f : Sequence C) :
    LieOperator.negatedDerivative.family u j (derive v f) =
      derive (LieOperator.bracket.family u j v) f +
        derive v (LieOperator.negatedDerivative.family u j f) := by
  funext k
  have h := along_along v (part (j + 2) u) (f k)
  rw [LieOperator.family, LieOperator.family, LieOperator.act_negatedDerivative,
    LieOperator.act_negatedDerivative, LieOperator.act_bracket, map_neg, Pi.add_apply,
    Pi.neg_apply, Pi.neg_apply, derive_apply, derive_apply, derive_apply, derive_apply,
    derive_apply, ← h]
  abel

theorem derive_identity (n : ℕ) {w : Sequence C} (hw : ∀ k, n ≤ k → w k = 0) :
    derive w (Tuple.identity n : Tuple C).value = w := by
  funext k
  rw [derive_apply]
  rcases Nat.lt_or_ge k n with hk | hk
  · rw [Tuple.value_identity hk, along_X]
  · rw [Tuple.value_of_size_le (by rwa [Tuple.identity_size]), hw k hk, map_zero]

theorem identity_mem (n : ℕ) : (Tuple.identity n : Tuple C).value ∈ homogeneous 1 := by
  refine mem_homogeneous.2 fun k => ?_
  rcases Nat.lt_or_ge k n with hk | hk
  · rw [Tuple.value_identity hk]
    exact MvPolynomial.isHomogeneous_X C k
  · rw [Tuple.value_of_size_le (by rwa [Tuple.identity_size])]
    exact MvPolynomial.isHomogeneous_zero ℕ C 1

end LieNormalForm

end
