import Mathlib

/-!
# Convolution of sequences

A sequence of vectors is read as a formal series in one parameter. A bilinear map of vectors
gives a product of series, the sums over antidiagonals; `rise` is the derivative by the
parameter, and the product obeys its Leibniz rule.
-/

noncomputable section

open Finset

namespace LieNormalForm

namespace LieSeries

section Antidiagonal

variable {M : Type*} [AddCommMonoid M]

theorem sum_antidiagonal_assoc (g : ℕ → ℕ → ℕ → M) (i : ℕ) :
    ∑ p ∈ antidiagonal i, ∑ q ∈ antidiagonal p.2, g p.1 q.1 q.2 =
      ∑ p ∈ antidiagonal i, ∑ q ∈ antidiagonal p.1, g q.1 q.2 p.2 := by
  rw [sum_sigma', sum_sigma']
  refine sum_nbij' (fun x => ⟨(x.1.1 + x.2.1, x.2.2), (x.1.1, x.2.1)⟩)
    (fun x => ⟨(x.2.1, x.2.2 + x.1.2), (x.2.2, x.1.2)⟩) ?_ ?_ ?_ ?_ ?_
  · rintro ⟨⟨a, b⟩, c, d⟩ h
    simp only [mem_sigma, HasAntidiagonal.mem_antidiagonal] at h ⊢
    exact ⟨by omega, trivial⟩
  · rintro ⟨⟨a, b⟩, c, d⟩ h
    simp only [mem_sigma, HasAntidiagonal.mem_antidiagonal] at h ⊢
    exact ⟨by omega, trivial⟩
  · rintro ⟨⟨a, b⟩, c, d⟩ h
    simp only [mem_sigma, HasAntidiagonal.mem_antidiagonal] at h
    obtain ⟨_, rfl⟩ := h
    rfl
  · rintro ⟨⟨a, b⟩, c, d⟩ h
    simp only [mem_sigma, HasAntidiagonal.mem_antidiagonal] at h
    obtain ⟨_, rfl⟩ := h
    rfl
  · intro x _
    rfl

theorem sum_antidiagonal_left_comm (g : ℕ → ℕ → ℕ → M) (i : ℕ) :
    ∑ p ∈ antidiagonal i, ∑ q ∈ antidiagonal p.2, g p.1 q.1 q.2 =
      ∑ p ∈ antidiagonal i, ∑ q ∈ antidiagonal p.2, g q.1 p.1 q.2 := by
  rw [sum_antidiagonal_assoc, sum_antidiagonal_assoc fun a b c => g b a c]
  refine sum_congr rfl fun p _ => ?_
  exact (Nat.sum_antidiagonal_swap (f := fun q => g q.1 q.2 p.2)).symm

end Antidiagonal

variable {K : Type*} [Field K]
variable {L M N : Type*} [AddCommGroup L] [Module K L] [AddCommGroup M] [Module K M]
  [AddCommGroup N] [Module K N]

/-- The derivative by the parameter. -/
def rise : Module.End K (ℕ → M) :=
  LinearMap.pi fun i => ((i + 1 : ℕ) : K) • LinearMap.proj (i + 1)

theorem rise_apply (s : ℕ → M) (i : ℕ) : rise (K := K) s i = ((i + 1 : ℕ) : K) • s (i + 1) := rfl

/-- An iterated derivative, without the quotient of factorials. -/
theorem factorial_smul_rise_pow (s : ℕ → M) (m i : ℕ) :
    (i.factorial : K) • (rise (K := K) ^ m) s i = ((m + i).factorial : K) • s (m + i) := by
  induction m generalizing i with
  | zero => rw [Nat.zero_add]; rfl
  | succ m ih =>
    have hstep := ih (i + 1)
    rw [Nat.factorial_succ, Nat.cast_mul, mul_comm, mul_smul] at hstep
    rw [pow_succ', Module.End.mul_apply, rise_apply, hstep, Nat.add_right_comm m 1 i,
      Nat.add_assoc m i 1]

/-- The rule of Leibniz for a sum over an antidiagonal. -/
theorem succ_smul_sum_antidiagonal (g : ℕ → ℕ → M) (i : ℕ) :
    ((i + 1 : ℕ) : K) • ∑ p ∈ antidiagonal (i + 1), g p.1 p.2 =
      ∑ p ∈ antidiagonal i, ((p.1 + 1 : ℕ) : K) • g (p.1 + 1) p.2 +
        ∑ p ∈ antidiagonal i, ((p.2 + 1 : ℕ) : K) • g p.1 (p.2 + 1) := by
  have hfst : ∑ p ∈ antidiagonal (i + 1), (p.1 : K) • g p.1 p.2 =
      ∑ p ∈ antidiagonal i, ((p.1 + 1 : ℕ) : K) • g (p.1 + 1) p.2 := by
    rw [Nat.sum_antidiagonal_succ, Nat.cast_zero, zero_smul, zero_add]
  have hsnd : ∑ p ∈ antidiagonal (i + 1), (p.2 : K) • g p.1 p.2 =
      ∑ p ∈ antidiagonal i, ((p.2 + 1 : ℕ) : K) • g p.1 (p.2 + 1) := by
    rw [Nat.sum_antidiagonal_succ', Nat.cast_zero, zero_smul, zero_add]
  rw [← hfst, ← hsnd, ← sum_add_distrib, smul_sum]
  refine sum_congr rfl fun p hp => ?_
  rw [← add_smul, ← Nat.cast_add, HasAntidiagonal.mem_antidiagonal.1 hp]

/-- The product of two series under a bilinear map. -/
def convolve (B : L →ₗ[K] M →ₗ[K] N) (x : ℕ → L) (y : ℕ → M) (i : ℕ) : N :=
  ∑ p ∈ antidiagonal i, B (x p.1) (y p.2)

theorem rise_convolve (B : L →ₗ[K] M →ₗ[K] N) (x : ℕ → L) (y : ℕ → M) :
    rise (K := K) (convolve B x y) =
      convolve B (rise (K := K) x) y + convolve B x (rise (K := K) y) := by
  funext i
  rw [rise_apply, convolve, succ_smul_sum_antidiagonal fun a b => B (x a) (y b)]
  refine congrArg₂ (· + ·) (sum_congr rfl fun p _ => ?_) (sum_congr rfl fun p _ => ?_)
  · rw [rise_apply, map_smul, LinearMap.smul_apply]
  · rw [rise_apply, map_smul]

theorem convolve_congr {B : L →ₗ[K] M →ₗ[K] N} {x x' : ℕ → L} {y y' : ℕ → M} {i : ℕ}
    (hx : ∀ a ≤ i, x a = x' a) (hy : ∀ b ≤ i, y b = y' b) :
    convolve B x y i = convolve B x' y' i := by
  refine sum_congr rfl fun p hp => ?_
  have hsum := HasAntidiagonal.mem_antidiagonal.1 hp
  rw [hx p.1 (by omega), hy p.2 (by omega)]

end LieSeries

end LieNormalForm

end
