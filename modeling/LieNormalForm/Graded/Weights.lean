import LieNormalForm.Scalar

/-!
# Factorials and binomial coefficients

The weights of a Lie series, multiplied up factor by factor.
-/

namespace LieNormalForm

namespace Weight

variable {W : Type} [Weight W]

/-- `n!`, the product of `1, …, n` in this order. -/
def factorial : Nat → W
  | 0 => 1
  | n + 1 => factorial n * Weight.ofNat (n + 1)

/-- `1 / n!`. -/
def inverseFactorial (n : Nat) : W := 1 / factorial n

/-- The binomial coefficient of `n` and `k`, each factor divided at once. -/
def chooseProduct (n : Nat) : Nat → W
  | 0 => 1
  | j + 1 => chooseProduct n j * Weight.ofNat (n - j) / Weight.ofNat (j + 1)

/-- The binomial coefficient of `n` and `k`, through the smaller of `k` and `n - k`. -/
def binomial (n k : Nat) : W :=
  if n < k then Weight.ofNat 0 else chooseProduct n (min k (n - k))

theorem factorial_zero : (factorial 0 : W) = 1 := rfl

theorem factorial_succ (n : Nat) :
    (factorial (n + 1) : W) = factorial n * Weight.ofNat (n + 1) := rfl

theorem binomial_zero (n : Nat) : (binomial n 0 : W) = 1 := by simp [binomial, chooseProduct]

theorem binomial_self (n : Nat) : (binomial n n : W) = 1 := by simp [binomial, chooseProduct]

theorem binomial_symm {n k : Nat} (h : k ≤ n) : (binomial n (n - k) : W) = binomial n k := by
  unfold binomial
  rw [if_neg (by omega), if_neg (by omega), Nat.sub_sub_self h, Nat.min_comm]

end Weight

end LieNormalForm
