import LieNormalForm.Proofs.Reals
import LieNormalForm.Proofs.Obtainable.Poly
import LieNormalForm.Proofs.Support.Poly
import LieNormalForm.Proofs.Value.Evaluation

/-!
# The value of an expression at a point

A tree has a value of its own: names stand for numbers, and the signs are the operations of the
field. Over exact complex numbers this is the value of the polynomial that the tree expands to.
Divisors and exponents only have to be constant once they are expanded; their values do not depend
on the point then, so the expansion divides by and counts to the numbers that the tree asks for.
-/

noncomputable section

namespace LieNormalForm

/-- A polynomial without variables has its coefficient for a value, at every point. -/
theorem Poly.evaluate_of_asConstant? {C W : Type} [Weight W] [ExactField C W] {n : ℕ} {p : Poly C}
    (hp : p.Canonical n) {c : C} (h : p.asConstant? = some c) (a : List C) : p.evaluate a = c := by
  unfold asConstant? at h
  split at h
  · rename_i hdegree
    obtain rfl := Option.some.inj h
    simp [evaluate, terms_eq_nil_of_degree? hdegree, Coefficient.sum]
  · rename_i hdegree
    obtain rfl := Option.some.inj h
    have hcoeff : ∀ s ≠ 0, MvPolynomial.coeff s p.value = 0 := by
      intro s hs
      by_contra hne
      obtain ⟨t, ht, rfl⟩ := exists_mem_of_coeff_ne_zero hne
      have hzero := Nat.le_zero.1 (supported_of_degree? hdegree t ht)
      rw [← Monomial.degree_exponents, Finsupp.degree_eq_zero_iff] at hzero
      exact hs hzero
    have hone := coeff_value hp (Monomial.one_length n)
    have hconstant : p.value = MvPolynomial.C (p.coefficient (Monomial.one n)) := by
      ext s
      by_cases hs : s = 0
      · rw [hs, MvPolynomial.coeff_zero_C, ← hone, Monomial.exponents_one]
      · rw [hcoeff s hs, MvPolynomial.coeff_C, if_neg (Ne.symm hs)]
    rw [evaluate_eq_eval, hconstant, MvPolynomial.eval_C, hp.nvars_eq]
  · cases h

variable {C R : Type} [ExactReal R] [ExactComplex C R]

/-- What a sign makes of two numbers. A divisor is not zero, an exponent is a natural number, and
a sign without a meaning gives nothing. -/
def Operator.Gives (x y z : C) : Operator → Prop
  | add => z = x + y
  | sub => z = x - y
  | mul => z = x * y
  | div => y ≠ 0 ∧ z = x / y
  | pow => ∃ n : ℕ, y = n ∧ z = x ^ n
  | other _ => False

namespace Expression

/-- The value of a tree at a point. A declared name stands for a coordinate of the point, the name
`I` as well; where it is not declared, `I` is the imaginary unit. Calls have no value. -/
inductive HasValue (vars : Variables) (a : List C) : Expression R → C → Prop
  | number (x : R) : HasValue vars a (number x) (ComplexNumber.ofReal x)
  | declared {name : String} {k : ℕ} :
      vars.indexOf? name = some k → HasValue vars a (identifier name) (pointAt a k)
  | unit : vars.indexOf? "I" = none → HasValue vars a (identifier "I") ComplexNumber.unit
  | negate {e : Expression R} {x : C} : HasValue vars a e x → HasValue vars a (negate e) (-x)
  | binary {op : Operator} {left right : Expression R} {x y z : C} :
      HasValue vars a left x → HasValue vars a right y → op.Gives x y z →
        HasValue vars a (binary op left right) z

section Tree

variable {vars : Variables} {a : List C} {x : C}

theorem hasValue_number {value : R} :
    HasValue vars a (number value) x ↔ x = ComplexNumber.ofReal value := by
  constructor
  · intro h; cases h; rfl
  · rintro rfl; exact .number value

theorem hasValue_declared {name : String} {k : ℕ} (hk : vars.indexOf? name = some k) :
    HasValue vars a (identifier name : Expression R) x ↔ x = pointAt a k := by
  constructor
  · intro h
    cases h with
    | declared hj => rw [Option.some.inj (hk.symm.trans hj)]
    | unit hnone => rw [hk] at hnone; cases hnone
  · rintro rfl; exact .declared hk

theorem hasValue_unit (hnone : vars.indexOf? "I" = none) :
    HasValue vars a (identifier "I" : Expression R) x ↔ x = ComplexNumber.unit := by
  constructor
  · intro h
    cases h with
    | declared hk => rw [hnone] at hk; cases hk
    | unit _ => rfl
  · rintro rfl; exact .unit hnone

theorem hasValue_negate {e : Expression R} :
    HasValue vars a (negate e) x ↔ ∃ y, HasValue vars a e y ∧ x = -y := by
  constructor
  · intro h
    cases h with
    | negate hy => exact ⟨_, hy, rfl⟩
  · rintro ⟨y, hy, rfl⟩; exact .negate hy

theorem hasValue_binary {op : Operator} {left right : Expression R} :
    HasValue vars a (binary op left right) x ↔
      ∃ y z, HasValue vars a left y ∧ HasValue vars a right z ∧ op.Gives y z x := by
  constructor
  · intro h
    cases h with
    | binary hy hz hgives => exact ⟨_, _, hy, hz, hgives⟩
  · rintro ⟨y, z, hy, hz, hgives⟩; exact .binary hy hz hgives

theorem expandName_value {name : String} {p : Poly C} (h : expandName vars name = .ok p) :
    HasValue vars a (identifier name : Expression R) x ↔ x = p.evaluate a := by
  unfold expandName at h
  split at h
  · rename_i k hk
    obtain rfl := Except.ok.inj h
    rw [hasValue_declared hk, Poly.evaluate_coordinate (Variables.lt_of_indexOf? hk)]
  · rename_i hnone
    split at h
    · rename_i hname
      subst hname
      obtain rfl := Except.ok.inj h
      rw [hasValue_unit hnone, Poly.evaluate_constant]
    · cases h

end Tree

section Polynomials

variable [SoundReal R] {n : ℕ} {p q r : Poly C} {a : List C} {x : C}

theorem eq_natCast_of_natural? {c : C} {e : ℕ} (h : natural? c = some e) : c = e := by
  unfold natural? at h
  split at h
  · rename_i him
    apply ExactComplex.ext
    · rw [ExactComplex.re_natCast, SoundReal.eq_natCast h]
    · rw [ExactComplex.im_natCast, (ExactReal.beq_iff _ _).1 him]
  · cases h

theorem divide_gives (hq : q.Canonical n) (h : divide p q = .ok r) :
    Operator.div.Gives (p.evaluate a) (q.evaluate a) x ↔ x = r.evaluate a := by
  obtain ⟨c, hc, hnorm, rfl⟩ := divide_eq_ok h
  have hvalue := Poly.evaluate_of_asConstant? hq hc a
  have hne : c ≠ 0 := by
    rintro rfl
    rw [ExactComplex.norm_zero, (ExactReal.beq_iff (0 : R) 0).2 rfl] at hnorm
    cases hnorm
  simp only [Operator.Gives, hvalue, ne_eq, hne, not_false_eq_true, true_and, Poly.evaluate_scale,
    ExactComplex.inv_eq hne, div_eq_inv_mul]

variable [Numeral R]

theorem pow_gives (hp : p.Canonical n) (hq : q.Canonical n) (h : combine .pow p q = .ok r) :
    Operator.pow.Gives (p.evaluate a) (q.evaluate a) x ↔ x = r.evaluate a := by
  obtain ⟨e, he, -, rfl⟩ := combine_pow_eq_ok h
  obtain ⟨c, hc, hnatural, -⟩ := exponentOf_eq_ok he
  have hvalue : q.evaluate a = e :=
    (Poly.evaluate_of_asConstant? hq hc a).trans (eq_natCast_of_natural? hnatural)
  simp only [Operator.Gives, hvalue, Poly.evaluate_pow hp]
  constructor
  · rintro ⟨k, hk, rfl⟩
    rw [ExactComplex.natCast_injective hk]
  · rintro rfl
    exact ⟨e, rfl, rfl⟩

/-- Two polynomials are put together as their values are. -/
theorem combine_gives (hp : p.Canonical n) (hq : q.Canonical n) {op : Operator}
    (h : combine op p q = .ok r) :
    op.Gives (p.evaluate a) (q.evaluate a) x ↔ x = r.evaluate a := by
  cases op with
  | add =>
    obtain rfl := Except.ok.inj h
    simp only [Operator.Gives, Poly.evaluate_add]
  | sub =>
    obtain rfl := Except.ok.inj h
    simp only [Operator.Gives, Poly.evaluate_sub]
  | mul =>
    obtain ⟨-, rfl⟩ := combine_mul_eq_ok h
    simp only [Operator.Gives, Poly.evaluate_mul hp hq]
  | div => exact divide_gives hq h
  | pow => exact pow_gives hp hq h
  | other symbol => cases h

variable {vars : Variables}

/-- Expansion preserves values: at every point the tree has the value of the polynomial that it
expands to, and no other. -/
theorem expand_preserves_value {e : Expression R} (h : e.expand vars = .ok p) (a : List C) (x : C) :
    HasValue vars a e x ↔ x = p.evaluate a := by
  induction e generalizing p x with
  | number value =>
    obtain rfl := Except.ok.inj h
    rw [hasValue_number, Poly.evaluate_constant]
  | identifier name => exact expandName_value h
  | negate inner ih =>
    obtain ⟨q, hq, rfl⟩ := expand_negate_eq_ok h
    simp only [hasValue_negate, ih hq, Poly.evaluate_neg, exists_eq_left]
  | call function argument => cases h
  | binary op left right ihl ihr =>
    obtain ⟨q, r, hq, hr, hcombine⟩ := expand_binary_eq_ok h
    have hgives := combine_gives (a := a) (x := x) (expand_canonical hq) (expand_canonical hr)
      hcombine
    simp only [hasValue_binary, ihl hq, ihr hr, ← hgives, exists_eq_left, exists_and_left]

end Polynomials

/-- The tree of `(x + I)^(y - y + 2) / (x + 4 - x)`. -/
def cancelling : Expression ℚ :=
  .binary .div
    (.binary .pow (.binary .add (.identifier "x") (.identifier "I"))
      (.binary .add (.binary .sub (.identifier "y") (.identifier "y")) (.number 2)))
    (.binary .sub (.binary .add (.identifier "x") (.number 4)) (.identifier "x"))

theorem expand_preserves_value_cancelling :
    let p : Poly GaussianRational :=
      ⟨2, [([0, 0], ⟨-1 / 4, 0⟩), ([1, 0], ⟨0, 1 / 2⟩), ([2, 0], ⟨1 / 4, 0⟩)]⟩
    cancelling.expand ⟨["x", "y"]⟩ = .ok p ∧
      ∀ x, HasValue ⟨["x", "y"]⟩ [⟨3, 1⟩, 5] cancelling x ↔ x = p.evaluate [⟨3, 1⟩, 5] := by
  intro p
  have hexpand : cancelling.expand ⟨["x", "y"]⟩ = .ok p := by decide +kernel
  exact ⟨hexpand, fun x => expand_preserves_value hexpand _ x⟩

/-- A declared name shadows the imaginary unit. -/
example : HasValue ⟨["I"]⟩ [(5 : GaussianRational)] (identifier "I" : Expression ℚ) 5 :=
  .declared (k := 0) rfl

end Expression

end LieNormalForm

end
