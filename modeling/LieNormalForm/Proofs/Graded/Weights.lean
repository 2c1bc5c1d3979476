import LieNormalForm.Proofs.Exact
import LieNormalForm.Proofs.Double.Integers

/-!
# Binomial coefficients without rounding

The product that is multiplied and divided factor by factor runs through a row of binomial
coefficients, and each of its divisions leaves no remainder. Rational numbers follow it in every
row, doubles as long as what is to be divided has at most 53 bits.
-/

namespace LieNormalForm

namespace Weight

open Double (IsWhole)

section Rational

theorem chooseProduct_rat {n k : ℕ} (hk : k ≤ n) : (chooseProduct n k : ℚ) = n.choose k :=
  ExactField.ofWeight_chooseProduct hk

theorem binomial_rat (n k : ℕ) : (binomial n k : ℚ) = n.choose k := ExactField.ofWeight_binomial n k

/-- What is divided in a step is the divisor times the next binomial coefficient. -/
theorem dividend_rat {n j : ℕ} (hj : j < n) :
    (chooseProduct n j : ℚ) * ofNat (n - j) = ((n.choose (j + 1) * (j + 1) : ℕ) : ℚ) := by
  have hdividend : (chooseProduct n j : ℚ) * ofNat (n - j) = n.choose j * (n - j : ℕ) :=
    congrArg (· * ((n - j : ℕ) : ℚ)) (chooseProduct_rat hj.le)
  rw [hdividend, Nat.choose_succ_right_eq, Nat.cast_mul]

end Rational

section Double

/-- One step of the product over doubles. -/
theorem isWhole_step {n j : ℕ} (hj : j < n) {x : Float} (hx : IsWhole x (n.choose j))
    (hbits : n.choose j * (n - j) < 2 ^ 53) :
    IsWhole (x * ofNat (n - j) / ofNat (j + 1)) (n.choose (j + 1)) := by
  have hfactor : n - j < 2 ^ 53 :=
    Nat.lt_of_le_of_lt (Nat.le_mul_of_pos_left _ hx.pos) hbits
  have hdividend := hx.mul (IsWhole.ofNat (by omega) hfactor) hbits
  rw [← Nat.choose_succ_right_eq] at hdividend hbits
  have hdivisor : j + 1 < 2 ^ 53 :=
    Nat.lt_of_le_of_lt (Nat.le_mul_of_pos_left _ (Nat.choose_pos hj)) hbits
  exact hdividend.div (IsWhole.ofNat j.succ_pos hdivisor)

theorem isWhole_chooseProduct {n k : ℕ} (hk : k ≤ n)
    (hbits : ∀ j < k, n.choose j * (n - j) < 2 ^ 53) :
    IsWhole (chooseProduct n k) (n.choose k) := by
  induction k with
  | zero =>
    rw [Nat.choose_zero_right]
    exact IsWhole.one
  | succ j ih =>
    exact isWhole_step hk (ih (Nat.le_of_lt hk) fun i hi => hbits i (Nat.lt_succ_of_lt hi))
      (hbits j j.lt_succ_self)

theorem natValue?_binomial {n k : ℕ} (hbits : ∀ j < min k (n - k), n.choose j * (n - j) < 2 ^ 53) :
    RealNumber.natValue? (binomial n k : Float) = some (n.choose k) := by
  unfold binomial
  split
  · rename_i hlt
    rw [Nat.choose_eq_zero_of_lt hlt]
    decide +kernel
  · have hchoose : n.choose (min k (n - k)) = n.choose k := by
      rcases Nat.le_total k (n - k) with hmin | hmin
      · rw [Nat.min_eq_left hmin]
      · rw [Nat.min_eq_right hmin, Nat.choose_symm (by omega)]
    rw [← hchoose]
    exact (isWhole_chooseProduct (by omega) hbits).natValue?

end Double

/-- The binomial coefficients of the program are those of the textbook: over the rational numbers
all of them, and every step of the product gives a natural number because the divisor divides;
over doubles those whose products stay below `2^53`. -/
theorem binomial_exact (n k : ℕ) :
    (binomial n k : ℚ) = n.choose k ∧
      (∀ j < min k (n - k), (chooseProduct n (j + 1) : ℚ) = n.choose (j + 1) ∧
        (chooseProduct n j : ℚ) * ofNat (n - j) = ((n.choose (j + 1) * (j + 1) : ℕ) : ℚ)) ∧
      ((∀ j < min k (n - k), n.choose j * (n - j) < 2 ^ 53) →
        RealNumber.natValue? (binomial n k : Float) = some (n.choose k) ∧
        ∀ j < min k (n - k),
          RealNumber.natValue? (chooseProduct n (j + 1) : Float) = some (n.choose (j + 1))) := by
  refine ⟨binomial_rat n k, fun j hj => ⟨chooseProduct_rat (by omega), dividend_rat (by omega)⟩,
    fun hbits => ⟨natValue?_binomial hbits, fun j hj => ?_⟩⟩
  exact (isWhole_chooseProduct (by omega) fun i hi => hbits i (by omega)).natValue?

/-- The last row of which all coefficients are exact over doubles by this bound. -/
theorem binomial_exact_row :
    (∀ j < 25, Nat.choose 51 j * (51 - j) < 2 ^ 53) ∧
      RealNumber.natValue? (binomial 51 25 : Float) = some 247959266474052 := by
  have hchoose : Nat.choose 51 25 = 247959266474052 := by
    rw [Nat.choose_eq_descFactorial_div_factorial]
    decide
  have hbits : ∀ j < 25, Nat.choose 51 j * (51 - j) < 2 ^ 53 := by
    simp only [Nat.choose_eq_descFactorial_div_factorial]
    decide
  exact ⟨hbits, hchoose ▸ ((binomial_exact 51 25).2.2 hbits).1⟩

end Weight

end LieNormalForm
