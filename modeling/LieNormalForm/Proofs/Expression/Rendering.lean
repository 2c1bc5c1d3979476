import LieNormalForm.Proofs.Expression.Expansion

/-!
# Rendered polynomials read back

Every piece of a rendered polynomial denotes what it was written for: numbers, names, powers and
coefficients as factors, terms as products that may have a minus sign in front, and the polynomial
as the sum of its terms. So parsing gives the polynomial back.
-/

noncomputable section

namespace LieNormalForm

open ComplexNumber (re im ofReal)
open Monomial (exponents)

namespace Numeral

variable {R : Type} [RealNumber R] [Numeral R]

/-- The number is written with digits and points, and read back. -/
structure Legible (x : R) : Prop where
  nonempty : plain x ≠ ""
  digits : ∀ c ∈ (plain x).toList, Token.isNumberChar c = true
  read : read? (plain x) = some x

/-- The number is legible, or a minus sign is written before its legible negative. -/
structure Printable (x : R) : Prop where
  legible : RealNumber.lt x 0 = false → Legible x
  negative : RealNumber.lt x 0 = true → plain x = "-" ++ plain (-x) ∧ Legible (-x)

theorem Printable.neg {R : Type} [ExactReal R] [Numeral R] {x : R} (h : Printable x)
    (hx : RealNumber.lt x 0 = true) : Printable (-x) where
  legible _ := (h.negative hx).2
  negative hneg := absurd hneg (by simp [ExactReal.neg_nonneg hx])

omit [RealNumber R] in
theorem Legible.lexes {x : R} (h : Legible x) : Token.Lexes (plain x) [.number x] :=
  .number h.nonempty h.digits h.read

end Numeral

open Numeral (Printable Legible plain)

namespace Expression

variable {C R : Type} [ExactReal R] [ExactComplex C R] [Numeral R]

/-- The variables have different names, none of them the imaginary unit, and every name and every
exponent up to the limit is read as a single token: the name and the number that it is. -/
structure Spelled (R : Type) [ExactReal R] [Numeral R] (vars : Variables) : Prop where
  nodup : vars.names.Nodup
  names : ∀ name ∈ vars.names,
    (Token.scan name.toList : Except ParseFault (List (Token R))) = .ok [.name name]
  unit : "I" ∉ vars.names
  naturals : ∀ e ≤ maxDegree, Numeral.read? (toString e) = some (e : R)

variable {vars : Variables}

theorem Spelled.lexes_natural (h : Spelled R vars) {e : ℕ} (he : e ≤ maxDegree) :
    Token.Lexes (toString e) [.number (e : R)] := by
  refine .number ?_ (fun c hc => ?_) (h.naturals e he)
  · exact Nat.repr_ne_empty
  · rw [Nat.toString_eq_repr, Nat.toList_repr] at hc
    exact Token.isNumberChar_of_mem_toDigits hc

theorem Spelled.lexes_name (h : Spelled R vars) {name : String} (hname : name ∈ vars.names) :
    Token.Lexes (R := R) name [.name name] :=
  .name (Token.isName_of_scan (h.names name hname))

/-- A product, alone and with a minus sign in front. -/
structure DenotesTerm (vars : Variables) (text : String) (a : MvPolynomial ℕ C) (d : ℕ) : Prop where
  positive : Denotes vars .product text a d
  negative : Denotes vars .product ("-" ++ text) (-a) d

section Term

variable {t u : String} {a b : MvPolynomial ℕ C} {d d' : ℕ}

theorem Denotes.signed (h : Denotes vars .power t a d) : Denotes vars .signed t a d :=
  h.lift fun _ _ => .ofPower

theorem Denotes.product (h : Denotes vars .signed t a d) : Denotes vars .product t a d :=
  h.lift fun _ _ => .ofSigned

theorem Denotes.power (h : Denotes vars .primary t a d) : Denotes vars .power t a d :=
  h.lift fun _ _ => .ofPrimary

theorem Denotes.term (h : Denotes vars .power t a d) : DenotesTerm vars t a d :=
  ⟨h.signed.product, h.signed.negate.product⟩

theorem DenotesTerm.mul (h : DenotesTerm vars t a d) (h' : Denotes vars .power u b d')
    (hdegree : d + d' ≤ maxDegree) : DenotesTerm vars (t ++ "*" ++ u) (a * b) (d + d') := by
  refine ⟨h.positive.mul h'.signed hdegree, ?_⟩
  have hnegative := h.negative.mul h'.signed hdegree
  rw [neg_mul] at hnegative
  simpa only [String.append_assoc] using hnegative

end Term

section Coefficient

theorem Denotes.legible {x : R} (h : Legible x) :
    Denotes vars .primary (plain x) (MvPolynomial.C (ofReal x : C)) 0 :=
  .number h.lexes

theorem Denotes.printable {x : R} (h : Printable x) :
    Denotes vars .signed (plain x) (MvPolynomial.C (ofReal x : C)) 0 := by
  cases hx : RealNumber.lt x 0 with
  | false => exact (Denotes.legible (h.legible hx)).power.signed
  | true =>
    obtain ⟨htext, hlegible⟩ := h.negative hx
    have hmagnitude : Denotes vars .primary (plain (-x)) (MvPolynomial.C (ofReal (-x) : C)) 0 :=
      .legible hlegible
    have hnegative := hmagnitude.power.signed.negate
    rwa [← map_neg, ExactComplex.neg_ofReal, neg_neg, ← htext] at hnegative

theorem isName_unit : Token.IsName "I" :=
  ⟨'I', [], rfl, by decide, by decide, by decide +kernel, by simp⟩

variable (hs : Spelled R vars)
include hs

theorem Spelled.denotes_unit :
    Denotes vars .primary "I" (MvPolynomial.C (ComplexNumber.unit : C)) 0 :=
  .unit (.name isName_unit) hs.unit

theorem Spelled.denotes_imaginary {x : R} (h : Legible x) :
    DenotesTerm vars (plain x ++ "*" ++ "I")
      (MvPolynomial.C (ofReal x * ComplexNumber.unit : C)) 0 := by
  rw [map_mul]
  exact (Denotes.legible h).power.term.mul hs.denotes_unit.power (Nat.zero_le _)

/-- A coefficient with both parts, the real one written with its sign. -/
theorem Spelled.denotes_mixed {c : C} (hre : Printable (re c)) (him : Printable (im c)) :
    DenotesTerm vars
      (if RealNumber.lt (im c) 0 then "(" ++ plain (re c) ++ " - " ++ plain (-im c) ++ "*I)"
        else "(" ++ plain (re c) ++ " + " ++ plain (im c) ++ "*I)") (MvPolynomial.C c) 0 := by
  have hparts := ExactComplex.ofReal_re_add_ofReal_im_mul_unit c
  have hfirst : Denotes vars .sum (plain (re c)) (MvPolynomial.C (ofReal (re c) : C)) 0 :=
    (Denotes.printable hre).product.lift fun _ _ => .ofProduct
  have hclose : "*I)" = "*" ++ ("I" ++ ")") := by decide
  split
  · rename_i hnegative
    have hsum := hfirst.sub (hs.denotes_imaginary (him.negative hnegative).2).positive
    rw [← map_sub, ← ExactComplex.neg_ofReal, neg_mul, sub_neg_eq_add, hparts] at hsum
    have hterm := hsum.parentheses.power.term
    simp only [String.append_assoc] at hterm ⊢
    rwa [← hclose] at hterm
  · rename_i hpositive
    have hlegible := him.legible (eq_false_of_ne_true hpositive)
    have hsum := hfirst.add (hs.denotes_imaginary hlegible).positive
    rw [← map_add, hparts] at hsum
    have hterm := hsum.parentheses.power.term
    simp only [String.append_assoc] at hterm ⊢
    rwa [← hclose] at hterm

/-- A coefficient without a sign to pull out. -/
theorem Spelled.denotes_coefficient {c : C} (hre : Printable (re c)) (him : Printable (im c))
    (hsign : pullsSign c = false) :
    DenotesTerm vars (coefficientText c) (MvPolynomial.C c) 0 := by
  have hparts := ExactComplex.ofReal_re_add_ofReal_im_mul_unit c
  rw [pullsSign, Bool.or_eq_false_iff, Bool.and_eq_false_iff, Bool.and_eq_false_iff] at hsign
  obtain ⟨hreal, himaginary⟩ := hsign
  unfold coefficientText
  by_cases hzero : (im c == 0) = true
  · rw [if_pos hzero]
    rw [(ExactReal.beq_iff _ _).1 hzero, ExactComplex.ofReal_zero, zero_mul, add_zero] at hparts
    have hpositive := hreal.resolve_left (by simp [hzero])
    have hterm : Denotes vars .primary (plain (re c)) (MvPolynomial.C (ofReal (re c) : C)) 0 :=
      .legible (hre.legible hpositive)
    rw [hparts] at hterm
    exact hterm.power.term
  rw [if_neg hzero]
  by_cases hunreal : (re c == 0) = true
  · rw [if_pos hunreal]
    rw [(ExactReal.beq_iff _ _).1 hunreal, ExactComplex.ofReal_zero, zero_add] at hparts
    have hpositive := himaginary.resolve_left (by simp [hunreal])
    by_cases hone : (im c == 1) = true
    · rw [if_pos hone]
      rw [(ExactReal.beq_iff _ _).1 hone, ExactComplex.ofReal_one, one_mul] at hparts
      rw [← hparts]
      exact hs.denotes_unit.power.term
    · rw [if_neg hone]
      have hterm := hs.denotes_imaginary (C := C) (him.legible hpositive)
      rwa [hparts, String.append_assoc] at hterm
  rw [if_neg hunreal]
  exact hs.denotes_mixed hre him

/-- A variable that occurs in a monomial, as it is written. -/
theorem Spelled.denotes_factor {k e : ℕ} {f : String} (hk : k < vars.size) (he : e ≤ maxDegree)
    (hf : factorText vars k e = some f) :
    Denotes vars .power f (MvPolynomial.X k ^ e : MvPolynomial ℕ C) e := by
  have hname : vars.nameOf k ∈ vars.names := by
    rw [Variables.nameOf, List.getD_eq_getElem _ _ hk]
    exact List.getElem_mem hk
  have hcoordinate := Denotes.coordinate (C := C) hk hs.nodup (hs.lexes_name hname)
  unfold factorText at hf
  split at hf
  · cases hf
  split at hf
  · rename_i hone
    cases hf
    rw [hone, pow_one]
    exact hcoordinate.power
  · cases hf
    have hpow := hcoordinate.pow he (hs.lexes_natural he) (by omega)
    rwa [one_mul] at hpow

end Coefficient

section Factors

/-- Factors that are written with signs of multiplication between them, if there are any. -/
inductive DenotesFactors (vars : Variables) : List String → MvPolynomial ℕ C → ℕ → Prop
  | none : DenotesFactors vars [] 1 0
  | product {fs : List String} {a : MvPolynomial ℕ C} {d : ℕ} (nonempty : fs ≠ [])
      (term : DenotesTerm vars ("*".intercalate fs) a d) : DenotesFactors vars fs a d

variable {fs : List String} {a b : MvPolynomial ℕ C} {d e : ℕ}

theorem DenotesFactors.concat (h : DenotesFactors vars fs a d) {f : String}
    (hf : Denotes vars .power f b e) (hdegree : d + e ≤ maxDegree) :
    DenotesFactors vars (fs ++ [f]) (a * b) (d + e) := by
  refine .product (List.append_ne_nil_of_right_ne_nil _ (List.cons_ne_nil f [])) ?_
  cases h with
  | none =>
    rw [List.nil_append, String.intercalate_singleton, one_mul, zero_add]
    exact hf.term
  | product hne hterm =>
    rw [String.intercalate_append_of_ne_nil hne (List.cons_ne_nil f []),
      String.intercalate_singleton]
    exact hterm.mul hf hdegree

theorem factors_concat (m : Monomial) (e : ℕ) :
    (m ++ [e] : Monomial).factors vars = m.factors vars ++ (factorText vars m.length e).toList := by
  rw [Monomial.factors, List.mapIdx_concat, List.filterMap_append, Monomial.factors]
  cases factorText vars m.length e <;> rfl

theorem Spelled.denotes_factors (hs : Spelled R vars) (h : DenotesFactors vars fs a d)
    {m : Monomial} (hlen : m.length ≤ vars.size) (hdegree : d + m.degree ≤ maxDegree) :
    DenotesFactors vars (fs ++ m.factors vars) (a * MvPolynomial.monomial (exponents m) 1)
      (d + m.degree) := by
  induction m using List.reverseRecOn with
  | nil =>
    have hnone : Monomial.factors vars [] = [] := rfl
    have hone : exponents [] = 0 := List.toFinsupp_nil
    rwa [hnone, hone, List.append_nil, ← MvPolynomial.one_def, mul_one]
  | append_singleton m e ih =>
    -- the last variable adds one factor, or none if its exponent is zero
    rw [Monomial.degree_concat] at hdegree ⊢
    rw [List.length_append, List.length_singleton] at hlen
    have hprefix := ih (by omega) (by omega)
    rw [factors_concat, Monomial.exponents_concat, MvPolynomial.monomial_add_single,
      ← List.append_assoc, ← mul_assoc, ← add_assoc]
    cases hfactor : factorText vars m.length e with
    | none =>
      have hzero : e = 0 := by
        by_contra hne
        rw [factorText, if_neg hne] at hfactor
        split at hfactor <;> cases hfactor
      rw [hzero, pow_zero, mul_one, add_zero, Option.toList_none, List.append_nil]
      exact hprefix
    | some f =>
      exact hprefix.concat (hs.denotes_factor (by omega) (by omega) hfactor) (by omega)

theorem DenotesFactors.eq_one (h : DenotesFactors vars [] a d) : a = 1 ∧ d = 0 := by
  cases h with
  | none => exact ⟨rfl, rfl⟩
  | product hne => exact absurd rfl hne

theorem DenotesFactors.term (h : DenotesFactors vars fs a d) (hne : fs ≠ []) :
    DenotesTerm vars ("*".intercalate fs) a d := by
  cases h with
  | none => exact absurd rfl hne
  | product _ hterm => exact hterm

end Factors

section Magnitude

omit [Numeral R]

theorem pullsSign_cases {c : C} (h : pullsSign c = true) :
    (im c = 0 ∧ RealNumber.lt (re c) 0 = true) ∨ (re c = 0 ∧ RealNumber.lt (im c) 0 = true) := by
  simpa only [pullsSign, Bool.or_eq_true, Bool.and_eq_true, ExactReal.beq_iff] using h

theorem pullsSign_magnitude (c : C) : pullsSign (magnitude c) = false := by
  unfold magnitude
  split
  · rename_i hsign
    rw [pullsSign, ExactComplex.re_neg, ExactComplex.im_neg]
    rcases pullsSign_cases hsign with ⟨him, hre⟩ | ⟨hre, him⟩
    · rw [him, neg_zero, ExactReal.neg_nonneg hre, ExactReal.lt_self]
      simp
    · rw [hre, neg_zero, ExactReal.neg_nonneg him, ExactReal.lt_self]
      simp
  · rename_i hsign
    exact eq_false_of_ne_true hsign

theorem eq_signed_magnitude (c : C) : c = if pullsSign c then -magnitude c else magnitude c := by
  unfold magnitude
  split
  · exact (neg_neg c).symm
  · rfl

theorem eq_one_of_isUnit {c : C} (h : isUnit c = true) : c = 1 := by
  rw [isUnit, Bool.and_eq_true, ExactReal.beq_iff, ExactReal.beq_iff] at h
  exact ExactComplex.ext (h.1.trans ExactComplex.re_one.symm) (h.2.trans ExactComplex.im_one.symm)

end Magnitude

/-- A term within the limit for degrees, whose coefficient has printable parts. -/
structure Writable (t : Term C) : Prop where
  degree : t.1.degree ≤ maxDegree
  re : Printable (re t.2)
  im : Printable (im t.2)

theorem Writable.magnitude {t : Term C} (h : Writable t) : Writable (t.1, magnitude t.2) := by
  unfold LieNormalForm.magnitude
  split
  · rename_i hsign
    rcases pullsSign_cases hsign with ⟨him, hre⟩ | ⟨hre, him⟩
    · refine ⟨h.degree, ?_, ?_⟩
      · rw [ExactComplex.re_neg]
        exact h.re.neg hre
      · rw [ExactComplex.im_neg, him, neg_zero, ← him]
        exact h.im
    · refine ⟨h.degree, ?_, ?_⟩
      · rw [ExactComplex.re_neg, hre, neg_zero, ← hre]
        exact h.re
      · rw [ExactComplex.im_neg]
        exact h.im.neg him
  · exact h

theorem Spelled.denotes_term (hs : Spelled R vars) {t : Term C} (hlen : t.1.length = vars.size)
    (h : Writable t) :
    DenotesTerm vars (termText vars t) (MvPolynomial.monomial (exponents t.1) (magnitude t.2))
      t.1.degree := by
  have hcoefficient : DenotesTerm vars (coefficientText (magnitude t.2)) _ 0 :=
    hs.denotes_coefficient h.magnitude.re h.magnitude.im (pullsSign_magnitude t.2)
  have hbound : 0 + t.1.degree ≤ maxDegree := (zero_add t.1.degree).symm ▸ h.degree
  have hfactors := hs.denotes_factors (C := C) .none hlen.le hbound
  rw [List.nil_append, one_mul, zero_add] at hfactors
  unfold termText
  dsimp only
  split
  · rename_i hempty
    rw [List.isEmpty_iff.1 hempty] at hfactors
    obtain ⟨hone, hdegree⟩ := hfactors.eq_one
    rw [← mul_one (magnitude t.2), ← MvPolynomial.C_mul_monomial, hone, hdegree, mul_one, mul_one]
    exact hcoefficient
  rename_i hne
  rw [List.isEmpty_iff] at hne
  split
  · rename_i hunit
    rw [eq_one_of_isUnit hunit]
    exact hfactors.term hne
  · rw [← String.intercalate_singleton (s := "*") (t := coefficientText _)] at hcoefficient
    have hproduct :=
      hs.denotes_factors (.product (List.cons_ne_nil _ []) hcoefficient) hlen.le hbound
    rw [MvPolynomial.C_mul_monomial, mul_one, zero_add] at hproduct
    have hterm := hproduct.term (List.append_ne_nil_of_right_ne_nil _ hne)
    rwa [String.intercalate_append_of_ne_nil (List.cons_ne_nil _ []) hne,
      String.intercalate_singleton] at hterm

end Expression

end LieNormalForm

end
