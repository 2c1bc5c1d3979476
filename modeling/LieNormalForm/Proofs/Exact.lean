import Mathlib
import LieNormalForm.Graded.Weights

/-!
# Exact coefficients

The arithmetic of the library over a field, without rounding: the zero test holds of zero
only, and a weight counts as a coefficient without loss. Then factorials and binomial
coefficients of weights are the numbers that they are named for. Exact real numbers are
compared, signed and counted without rounding as well.
-/

namespace LieNormalForm

/-- Coefficients in a field, compared with zero and multiplied by weights without rounding. -/
class ExactField (C : Type) (W : outParam Type) [Weight W] extends Coefficient C W, Field C where
  isZero_iff (c : C) : Coefficient.isZero c = true ↔ c = 0
  mulNat_eq (c : C) (n : ℕ) : Coefficient.mulNat c n = c * n
  divNat_eq (c : C) (n : ℕ) : Coefficient.divNat c n = c / n
  ofWeight_one : (Coefficient.ofWeight (1 : W) : C) = 1
  ofWeight_ofNat (n : ℕ) : (Coefficient.ofWeight (Weight.ofNat n : W) : C) = n
  ofWeight_mul (v w : W) :
    (Coefficient.ofWeight (v * w) : C) = Coefficient.ofWeight v * Coefficient.ofWeight w
  ofWeight_div (v w : W) :
    (Coefficient.ofWeight (v / w) : C) = Coefficient.ofWeight v / Coefficient.ofWeight w

instance : Weight ℚ where
  ofNat n := n

instance : ExactField ℚ ℚ where
  isZero c := c == 0
  ofWeight w := w
  mulNat c n := c * n
  divNat c n := c / n
  isZero_iff _ := beq_iff_eq
  mulNat_eq _ _ := rfl
  divNat_eq _ _ := rfl
  ofWeight_one := rfl
  ofWeight_ofNat _ := rfl
  ofWeight_mul _ _ := rfl
  ofWeight_div _ _ := rfl

/-- Roots are exact where the number is a square. -/
instance : RealNumber ℚ where
  toWeight := inferInstance
  lt x y := x < y
  le x y := x ≤ y
  abs x := |x|
  sqrt := Rat.sqrt
  max x y := x ⊔ y
  decimal m e := m / 10 ^ e
  natValue? x := if x.den = 1 ∧ 0 ≤ x.num then some x.num.toNat else none

instance : Normed ℚ ℚ where
  norm x := |x|

/-- Real numbers in a field, without rounding. -/
class ExactReal (R : Type) extends RealNumber R, Field R where
  beq_iff (x y : R) : (x == y) = true ↔ x = y
  neg_nonneg {x : R} : RealNumber.lt x 0 = true → RealNumber.lt (-x) 0 = false
  natValue?_natCast (n : ℕ) : RealNumber.natValue? (n : R) = some n

theorem ExactReal.lt_self {R : Type} [ExactReal R] : RealNumber.lt (0 : R) 0 = false := by
  by_contra h
  have hneg := ExactReal.neg_nonneg (eq_true_of_ne_false h)
  rw [neg_zero] at hneg
  exact h hneg

instance : ExactReal ℚ where
  beq_iff _ _ := beq_iff_eq
  neg_nonneg {x} h := by
    have hx : x < 0 := of_decide_eq_true h
    exact decide_eq_false (not_lt.2 (neg_nonneg.2 hx.le))
  natValue?_natCast n := by
    change (if (n : ℚ).den = 1 ∧ 0 ≤ (n : ℚ).num then some (n : ℚ).num.toNat else none) = some n
    rw [Rat.den_natCast, Rat.num_natCast, if_pos ⟨rfl, Int.natCast_nonneg n⟩, Int.toNat_natCast]

/-- Real numbers on which no test errs: what counts as a natural number is this number, and the
root of zero is zero. -/
class SoundReal (R : Type) [ExactReal R] : Prop where
  eq_natCast {x : R} {n : ℕ} : RealNumber.natValue? x = some n → x = n
  sqrt_zero : RealNumber.sqrt (0 : R) = 0

instance : SoundReal ℚ where
  eq_natCast {x n} h := by
    change (if x.den = 1 ∧ 0 ≤ x.num then some x.num.toNat else none) = some n at h
    split at h
    · rename_i hx
      obtain rfl := Option.some.inj h
      have hnum : ((x.num.toNat : ℤ) : ℚ) = x.num := by rw [Int.toNat_of_nonneg hx.2]
      rw [← Int.cast_natCast, hnum, Rat.coe_int_num_of_den_eq_one hx.1]
    · cases h
  sqrt_zero := by
    change Rat.sqrt 0 = 0
    simp

namespace ExactField

variable {C W : Type} [Weight W] [ExactField C W]

theorem isZero_eq_false_iff (c : C) : Coefficient.isZero c = false ↔ c ≠ 0 := by
  rw [← Bool.not_eq_true, isZero_iff]

theorem ofWeight_factorial (n : ℕ) :
    Coefficient.ofWeight (Weight.factorial n : W) = (n.factorial : C) := by
  induction n with
  | zero => rw [Weight.factorial_zero, ofWeight_one, Nat.factorial_zero, Nat.cast_one]
  | succ n ih =>
    rw [Weight.factorial_succ, ofWeight_mul, ih, ofWeight_ofNat, Nat.factorial_succ]
    push_cast
    ring

theorem ofWeight_inverseFactorial (n : ℕ) :
    Coefficient.ofWeight (Weight.inverseFactorial n : W) = ((n.factorial : C))⁻¹ := by
  rw [Weight.inverseFactorial, ofWeight_div, ofWeight_one, ofWeight_factorial, one_div]

variable [CharZero C]

/-- The product that is divided factor by factor runs through binomial coefficients. -/
theorem ofWeight_chooseProduct {n k : ℕ} (h : k ≤ n) :
    Coefficient.ofWeight (Weight.chooseProduct n k : W) = (n.choose k : C) := by
  induction k with
  | zero => rw [Weight.chooseProduct, ofWeight_one, Nat.choose_zero_right, Nat.cast_one]
  | succ k ih =>
    have hk : (k : C) + 1 ≠ 0 := by exact_mod_cast k.succ_ne_zero
    have hstep : (n.choose (k + 1) : C) * (k + 1) = n.choose k * (n - k : ℕ) := by
      exact_mod_cast Nat.choose_succ_right_eq n k
    rw [Weight.chooseProduct, ofWeight_div, ofWeight_mul, ih (by omega), ofWeight_ofNat,
      ofWeight_ofNat, ← hstep]
    push_cast
    field_simp

theorem ofWeight_binomial (n k : ℕ) :
    Coefficient.ofWeight (Weight.binomial n k : W) = (n.choose k : C) := by
  unfold Weight.binomial
  split
  · rename_i h
    rw [ofWeight_ofNat, Nat.choose_eq_zero_of_lt h]
  · rename_i h
    rw [ofWeight_chooseProduct (by omega)]
    rcases Nat.le_total k (n - k) with hk | hk
    · rw [Nat.min_eq_left hk]
    · rw [Nat.min_eq_right hk, Nat.choose_symm (by omega)]

end ExactField

end LieNormalForm
