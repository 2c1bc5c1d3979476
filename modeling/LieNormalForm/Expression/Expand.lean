import LieNormalForm.Expression.Parser
import LieNormalForm.Poly.Render

/-!
# Expanded expressions

An expression over named variables is multiplied out into a polynomial. Divisors and
exponents have to expand to constants, and no expansion may pass the degree `maxDegree`;
degrees are checked before products and powers are formed.
-/

namespace LieNormalForm

namespace Expression

variable {C R : Type} [RealNumber R] [Numeral R] [ComplexNumber C R]

/-- The largest total degree an expression may reach. -/
def maxDegree : Nat := 1024

/-- The total degree, zero for the zero polynomial. -/
def degreeOf (p : Poly C) : Nat := p.degree?.getD 0

def checkDegree (d : Nat) : Except ParseFault Unit :=
  if maxDegree < d then .error (.degreeTooLarge d maxDegree) else .ok ()

/-- The natural number that a number without imaginary part is exactly. -/
def natural? (c : C) : Option Nat :=
  if ComplexNumber.im c == 0 then RealNumber.natValue? (ComplexNumber.re c) else none

/-- The exponent that the right side of a power stands for. -/
def exponentOf (p : Poly C) : Except ParseFault Nat :=
  match p.asConstant? with
  | none => .error .nonconstantExponent
  | some value =>
    match natural? value with
    | none => .error (.exponentNotNatural (complexText value))
    | some e =>
      if maxDegree < e then
        .error (.exponentTooLarge (Numeral.plain (ComplexNumber.re value)) maxDegree)
      else .ok e

/-- A name: a declared variable, or else the imaginary unit `I`. -/
def expandName (vars : Variables) (name : String) : Except ParseFault (Poly C) :=
  match vars.indexOf? name with
  | some k => .ok (Poly.coordinate vars.size k)
  | none =>
    if name = "I" then .ok (Poly.constant vars.size ComplexNumber.unit)
    else .error (.unknownIdentifier name)

/-- A polynomial divided by another that has to be a constant. -/
def divide (p q : Poly C) : Except ParseFault (Poly C) :=
  match q.asConstant? with
  | none => .error .nonconstantDivisor
  | some value =>
    if Normed.norm value == 0 then .error .divisionByZero
    else .ok (p.scale (ComplexNumber.inv value))

/-- Two expanded operands put together. -/
def combine (op : Operator) (p q : Poly C) : Except ParseFault (Poly C) :=
  match op with
  | .add => .ok (p + q)
  | .sub => .ok (p - q)
  | .mul =>
    match checkDegree (degreeOf p + degreeOf q) with
    | .error fault => .error fault
    | .ok _ => .ok (p * q)
  | .div => divide p q
  | .pow =>
    match exponentOf q with
    | .error fault => .error fault
    | .ok e =>
      match checkDegree (degreeOf p * e) with
      | .error fault => .error fault
      | .ok _ => .ok (p.pow e)
  | .other symbol => .error (.unknownOperator symbol)

/-- The polynomial that an expression over named variables stands for. -/
def expand (vars : Variables) : Expression R → Except ParseFault (Poly C)
  | number value => .ok (Poly.constant vars.size (ComplexNumber.ofReal value))
  | identifier name => expandName vars name
  | negate inner =>
    match expand vars inner with
    | .error fault => .error fault
    | .ok p => .ok (-p)
  | call function _ => .error (.notPolynomial function)
  | binary op left right =>
    match expand vars left with
    | .error fault => .error fault
    | .ok p =>
      match expand vars right with
      | .error fault => .error fault
      | .ok q => combine op p q

theorem checkDegree_ok {d : Nat} {u : Unit} (h : checkDegree d = .ok u) : d ≤ maxDegree := by
  unfold checkDegree at h
  split at h
  · cases h
  · omega

section Results

variable {vars : Variables} {p q r : Poly C}

theorem exponentOf_eq_ok {e : Nat} (h : exponentOf q = .ok e) :
    ∃ c, q.asConstant? = some c ∧ natural? c = some e ∧ e ≤ maxDegree := by
  unfold exponentOf at h
  split at h
  · cases h
  · rename_i c hc
    split at h
    · cases h
    · rename_i n hn
      split at h
      · cases h
      · rename_i hle
        cases h
        exact ⟨c, hc, hn, Nat.le_of_not_lt hle⟩

omit [Numeral R] in
theorem divide_eq_ok (h : divide p q = .ok r) :
    ∃ c, q.asConstant? = some c ∧ (Normed.norm c == 0) = false ∧
      r = p.scale (ComplexNumber.inv c) := by
  unfold divide at h
  split at h
  · cases h
  · rename_i c hc
    split at h
    · cases h
    · rename_i hnorm
      cases h
      exact ⟨c, hc, Bool.eq_false_iff.2 hnorm, rfl⟩

theorem combine_mul_eq_ok (h : combine .mul p q = .ok r) :
    degreeOf p + degreeOf q ≤ maxDegree ∧ r = p * q := by
  simp only [combine] at h
  split at h
  · cases h
  · rename_i hcheck
    cases h
    exact ⟨checkDegree_ok hcheck, rfl⟩

theorem combine_pow_eq_ok (h : combine .pow p q = .ok r) :
    ∃ e, exponentOf q = .ok e ∧ degreeOf p * e ≤ maxDegree ∧ r = p.pow e := by
  simp only [combine] at h
  split at h
  · cases h
  · rename_i e he
    split at h
    · cases h
    · rename_i hcheck
      cases h
      exact ⟨e, he, checkDegree_ok hcheck, rfl⟩

theorem expand_negate_eq_ok {e : Expression R} (h : (negate e).expand vars = .ok r) :
    ∃ p, e.expand vars = .ok p ∧ r = -p := by
  simp only [expand] at h
  split at h
  · cases h
  · rename_i p hp
    cases h
    exact ⟨p, hp, rfl⟩

theorem expand_binary_eq_ok {op : Operator} {left right : Expression R}
    (h : (binary op left right).expand vars = .ok r) :
    ∃ p q, left.expand vars = .ok p ∧ right.expand vars = .ok q ∧ combine op p q = .ok r := by
  simp only [expand] at h
  split at h
  · cases h
  · rename_i p hp
    split at h
    · cases h
    · rename_i q hq
      exact ⟨p, q, hp, hq, h⟩

end Results

end Expression

namespace Poly

variable {C R : Type} [RealNumber R] [Numeral R] [ComplexNumber C R]

/-- Reads a polynomial in named variables. -/
def parse (vars : Variables) (input : String) : Except Error (Poly C) :=
  match Expression.parse (R := R) input with
  | .error fault => .error (.parse fault)
  | .ok e =>
    match e.expand vars with
    | .error fault => .error (.parse fault)
    | .ok p => .ok p

end Poly

end LieNormalForm
