import LieNormalForm.Proofs.Exact

/-!
# Exact complex numbers

Complex coefficients over a field of real numbers, without rounding: a number is given by its two
parts, and sums and products are those of `x + yi`. Conjugation is then an automorphism that keeps
weights and sizes. The rational numbers with a square root of `−1` are an example.
-/

namespace LieNormalForm

/-- Complex numbers over exact real numbers. -/
class ExactComplex (C : Type) (R : outParam Type) [ExactReal R] extends ComplexNumber C R,
    ExactField C R where
  re_ofParts (x y : R) : ComplexNumber.re (ComplexNumber.ofParts x y : C) = x
  im_ofParts (x y : R) : ComplexNumber.im (ComplexNumber.ofParts x y : C) = y
  ofParts_re_im (c : C) : ComplexNumber.ofParts (ComplexNumber.re c) (ComplexNumber.im c) = c
  ofParts_add (x y x' y' : R) :
    (ComplexNumber.ofParts x y + ComplexNumber.ofParts x' y' : C) =
      ComplexNumber.ofParts (x + x') (y + y')
  ofParts_mul (x y x' y' : R) :
    (ComplexNumber.ofParts x y * ComplexNumber.ofParts x' y' : C) =
      ComplexNumber.ofParts (x * x' - y * y') (x * y' + y * x')
  ofWeight_eq (x : R) : (Coefficient.ofWeight x : C) = ComplexNumber.ofReal x
  norm_eq (c : C) : Normed.norm c = RealNumber.sqrt
    (ComplexNumber.re c * ComplexNumber.re c + ComplexNumber.im c * ComplexNumber.im c)

namespace ExactComplex

open ComplexNumber (re im ofParts ofReal conj unit)

variable {C R : Type} [ExactReal R] [ExactComplex C R]

theorem ext {c d : C} (hre : re c = re d) (him : im c = im d) : c = d := by
  rw [← ofParts_re_im c, ← ofParts_re_im d, hre, him]

theorem re_add (c d : C) : re (c + d) = re c + re d := by
  rw [← ofParts_re_im c, ← ofParts_re_im d, ofParts_add]
  simp only [re_ofParts]

theorem im_add (c d : C) : im (c + d) = im c + im d := by
  rw [← ofParts_re_im c, ← ofParts_re_im d, ofParts_add]
  simp only [im_ofParts]

theorem re_mul (c d : C) : re (c * d) = re c * re d - im c * im d := by
  rw [← ofParts_re_im c, ← ofParts_re_im d, ofParts_mul]
  simp only [re_ofParts, im_ofParts]

theorem im_mul (c d : C) : im (c * d) = re c * im d + im c * re d := by
  rw [← ofParts_re_im c, ← ofParts_re_im d, ofParts_mul]
  simp only [re_ofParts, im_ofParts]

theorem ofReal_one : (ofReal 1 : C) = 1 := by rw [← ofWeight_eq, ExactField.ofWeight_one]

theorem re_zero : re (0 : C) = 0 := by
  have h := re_add (0 : C) 0
  rw [add_zero] at h
  exact left_eq_add.1 h

theorem im_zero : im (0 : C) = 0 := by
  have h := im_add (0 : C) 0
  rw [add_zero] at h
  exact left_eq_add.1 h

theorem re_one : re (1 : C) = 1 := by rw [← ofReal_one, ofReal, re_ofParts]

theorem im_one : im (1 : C) = 0 := by rw [← ofReal_one, ofReal, im_ofParts]

theorem re_neg (c : C) : re (-c) = -re c := by
  refine eq_neg_of_add_eq_zero_left ?_
  rw [← re_add, neg_add_cancel, re_zero]

theorem im_neg (c : C) : im (-c) = -im c := by
  refine eq_neg_of_add_eq_zero_left ?_
  rw [← im_add, neg_add_cancel, im_zero]

/-- Conjugation of complex numbers. -/
def conjugation (C : Type) {R : Type} [ExactReal R] [ExactComplex C R] : C →+* C where
  toFun := conj
  map_one' := by rw [conj, re_one, im_one, neg_zero, ← ofReal, ofReal_one]
  map_zero' := ext (by rw [conj, re_ofParts]) (by rw [conj, im_ofParts, im_zero, neg_zero])
  map_mul' c d := ext
    (by simp only [conj, re_ofParts, im_ofParts, re_mul]; ring)
    (by simp only [conj, re_ofParts, im_ofParts, im_mul]; ring)
  map_add' c d := ext
    (by simp only [conj, re_ofParts, re_add])
    (by simp only [conj, im_ofParts, im_add]; ring)

theorem conjugation_apply (c : C) : conjugation C c = conj c := rfl

theorem conj_ofWeight (x : R) : conj (Coefficient.ofWeight x : C) = Coefficient.ofWeight x := by
  rw [ofWeight_eq, conj, ofReal, re_ofParts, im_ofParts, neg_zero]

theorem norm_conj (c : C) : Normed.norm (conj c) = Normed.norm c := by
  rw [norm_eq, norm_eq, conj, re_ofParts, im_ofParts, neg_mul_neg]

theorem isZero_conj (c : C) : Coefficient.isZero (conj c) = Coefficient.isZero c := by
  rw [Bool.eq_iff_iff, ExactField.isZero_iff, ExactField.isZero_iff, ← conjugation_apply]
  exact map_eq_zero (conjugation C)

theorem neg_ofReal (x : R) : (-ofReal x : C) = ofReal (-x) :=
  ext (by rw [re_neg, ofReal, ofReal, re_ofParts, re_ofParts])
    (by rw [im_neg, ofReal, ofReal, im_ofParts, im_ofParts, neg_zero])

theorem ofReal_re_add_ofReal_im_mul_unit (c : C) : ofReal (re c) + ofReal (im c) * unit = c := by
  rw [← ofParts_re_im c, ofReal, ofReal, unit, ofParts_mul, ofParts_add]
  simp only [re_ofParts, im_ofParts]
  congr 1 <;> ring

theorem ofReal_zero : (ofReal 0 : C) = 0 :=
  ext (by rw [ofReal, re_ofParts, re_zero]) (by rw [ofReal, im_ofParts, im_zero])

theorem re_natCast (n : ℕ) : re (n : C) = n := by
  induction n with
  | zero => simp [re_zero]
  | succ n ih => simp [re_add, re_one, ih]

theorem im_natCast (n : ℕ) : im (n : C) = 0 := by
  induction n with
  | zero => simp [im_zero]
  | succ n ih => simp [im_add, im_one, ih]

/-- Counting up never comes back to an earlier number. -/
theorem natCast_injective : Function.Injective (Nat.cast : ℕ → C) := by
  intro m n h
  have hre : (m : R) = n := by rw [← re_natCast (C := C), h, re_natCast]
  have hcount := congrArg RealNumber.natValue? hre
  rw [ExactReal.natValue?_natCast, ExactReal.natValue?_natCast] at hcount
  exact Option.some.inj hcount

theorem mul_conj (c : C) : c * conj c = ofReal (re c * re c + im c * im c) := by
  apply ext
  · simp only [re_mul, conj, ofReal, re_ofParts, im_ofParts]
    ring
  · simp only [im_mul, conj, ofReal, re_ofParts, im_ofParts]
    ring

/-- The conjugate over the squared size is the reciprocal. -/
theorem inv_eq {c : C} (hc : c ≠ 0) : ComplexNumber.inv c = c⁻¹ := by
  have hsize : re c * re c + im c * im c ≠ 0 := by
    intro hzero
    have hproduct : c * conj c = 0 := by rw [mul_conj, hzero, ofReal_zero]
    have hconj : conj c = 0 := (mul_eq_zero.1 hproduct).resolve_left hc
    exact hc ((map_eq_zero (conjugation C)).1 hconj)
  apply eq_inv_of_mul_eq_one_right
  apply ext
  · simp only [ComplexNumber.inv, re_mul, re_ofParts, im_ofParts, re_one]
    rw [neg_div, mul_neg, sub_neg_eq_add, ← mul_div_assoc, ← mul_div_assoc, ← add_div,
      div_self hsize]
  · simp only [ComplexNumber.inv, im_mul, re_ofParts, im_ofParts, im_one]
    ring

theorem norm_zero [SoundReal R] : Normed.norm (0 : C) = 0 := by
  simp [norm_eq, re_zero, im_zero, SoundReal.sqrt_zero]

end ExactComplex

/-- Rational numbers with a square root of `−1`. -/
abbrev GaussianRational := QuadraticAlgebra ℚ (-1) 0

instance neg_one_not_square : Fact (∀ r : ℚ, r ^ 2 ≠ -1 + 0 * r) :=
  ⟨fun r h => by
    have hsquare := sq_nonneg r
    rw [h] at hsquare
    norm_num at hsquare⟩

instance : ComplexNumber GaussianRational ℚ where
  isZero c := c.re == 0 && c.im == 0
  ofWeight x := ⟨x, 0⟩
  mulNat c n := ⟨c.re * n, c.im * n⟩
  divNat c n := ⟨c.re / n, c.im / n⟩
  norm c := RealNumber.sqrt (c.re * c.re + c.im * c.im)
  ofParts := QuadraticAlgebra.mk
  re := QuadraticAlgebra.re
  im := QuadraticAlgebra.im

instance : ExactComplex GaussianRational ℚ where
  isZero_iff c := by
    rw [QuadraticAlgebra.ext_iff]
    exact (Bool.and_eq_true_iff).trans (and_congr beq_iff_eq beq_iff_eq)
  mulNat_eq c n := by
    change QuadraticAlgebra.mk (c.re * n) (c.im * n) = c * (n : GaussianRational)
    ext <;> simp
  divNat_eq c n := by
    change QuadraticAlgebra.mk (c.re / n) (c.im / n) = c / (n : GaussianRational)
    rw [div_eq_mul_inv c, ← map_natCast (algebraMap ℚ GaussianRational), ← map_inv₀, mul_comm,
      ← Algebra.smul_def]
    ext <;> simp [div_eq_inv_mul]
  ofWeight_one := rfl
  ofWeight_ofNat n := map_natCast (algebraMap ℚ GaussianRational) n
  ofWeight_mul := map_mul (algebraMap ℚ GaussianRational)
  ofWeight_div := map_div₀ (algebraMap ℚ GaussianRational)
  re_ofParts _ _ := rfl
  im_ofParts _ _ := rfl
  ofParts_re_im _ := rfl
  ofParts_add _ _ _ _ := rfl
  ofParts_mul x y x' y' := by
    change QuadraticAlgebra.mk x y * QuadraticAlgebra.mk x' y' =
      (QuadraticAlgebra.mk (x * x' - y * y') (x * y' + y * x') : GaussianRational)
    ext <;> simp [sub_eq_add_neg]
  ofWeight_eq _ := rfl
  norm_eq _ := rfl

end LieNormalForm
