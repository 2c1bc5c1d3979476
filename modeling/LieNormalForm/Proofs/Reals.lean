import LieNormalForm.Proofs.Complex
import LieNormalForm.Proofs.Decimal

/-!
# Real and complex numbers

The definitions of the library over `ℝ` and `ℂ`, which are exact in the sense of the classes: two
numbers are compared by their size, roots are taken without rounding, and the size of a complex
number is its absolute value.
-/

noncomputable section

namespace LieNormalForm

instance : Weight ℝ where
  ofNat n := n

open Classical in
instance : RealNumber ℝ where
  toWeight := inferInstance
  beq x y := decide (x = y)
  lt x y := decide (x < y)
  le x y := decide (x ≤ y)
  abs x := |x|
  sqrt := Real.sqrt
  max x y := x ⊔ y
  decimal m e := m / 10 ^ e
  natValue? x := if (⌊x⌋₊ : ℝ) = x then some ⌊x⌋₊ else none

instance : ExactReal ℝ where
  beq_iff _ _ := decide_eq_true_iff
  neg_nonneg {x} h := by
    have hx : x < 0 := of_decide_eq_true h
    exact decide_eq_false (not_lt.2 (neg_nonneg.2 hx.le))
  natValue?_natCast n := by
    change (if (⌊(n : ℝ)⌋₊ : ℝ) = n then some ⌊(n : ℝ)⌋₊ else none) = some n
    rw [Nat.floor_natCast, if_pos rfl]

instance : SoundReal ℝ where
  eq_natCast {x n} h := by
    change (if (⌊x⌋₊ : ℝ) = x then some ⌊x⌋₊ else none) = some n at h
    split at h
    · rename_i hx
      rw [← hx, Option.some.inj h]
    · cases h
  sqrt_zero := Real.sqrt_zero

open Classical in
/-- A rational number is written as such, other real numbers have no text. -/
instance : Numeral ℝ where
  plain x := if h : ∃ q : ℚ, (q : ℝ) = x then Numeral.plain h.choose else ""
  marked x := if h : ∃ q : ℚ, (q : ℝ) = x then Numeral.marked h.choose else ""
  read? s := (Numeral.read? s : Option ℚ).map fun q => (q : ℝ)

open Classical in
instance : ComplexNumber ℂ ℝ where
  isZero c := decide (c = 0)
  ofWeight x := x
  mulNat c n := c * n
  divNat c n := c / n
  norm c := ‖c‖
  ofParts := Complex.mk
  re := Complex.re
  im := Complex.im

instance : ExactComplex ℂ ℝ where
  isZero_iff _ := decide_eq_true_iff
  mulNat_eq _ _ := rfl
  divNat_eq _ _ := rfl
  ofWeight_one := Complex.ofReal_one
  ofWeight_ofNat n := Complex.ofReal_natCast n
  ofWeight_mul := Complex.ofReal_mul
  ofWeight_div := Complex.ofReal_div
  re_ofParts _ _ := rfl
  im_ofParts _ _ := rfl
  ofParts_re_im _ := rfl
  ofParts_add _ _ _ _ := rfl
  ofParts_mul _ _ _ _ := rfl
  ofWeight_eq _ := rfl
  norm_eq c := Complex.norm_def c

end LieNormalForm

end
