import LieNormalForm.Proofs.Complex
import LieNormalForm.Proofs.Expression.Lexing
import LieNormalForm.Proofs.Value.Substitute

/-!
# The values of expanded expressions

Over exact complex numbers the expansion of an expression computes with the values that its parts
stand for, as long as no degree passes the limit. A text denotes a polynomial at a level of the
grammar if its tokens have a tree there that expands to the polynomial; what composed texts denote
follows from their pieces.
-/

noncomputable section

namespace LieNormalForm

namespace Poly

section Exact

variable {C W : Type} [Weight W] [ExactField C W] {n : ℕ} {p : Poly C}

theorem asConstant?_constant (n : ℕ) (c : C) : (constant n c).asConstant? = some c := by
  have hterms : (constant n c).terms =
      if Coefficient.isZero c then [] else [(Monomial.one n, c)] := by
    rw [constant, ofTerm, addTerm_terms]
    rfl
  unfold asConstant? degree?
  rw [hterms]
  by_cases hc : Coefficient.isZero c = true
  · rw [if_pos hc, (ExactField.isZero_iff c).1 hc]
    rfl
  · rw [if_neg hc, List.map_singleton, Monomial.degree_one]
    have hcoefficient : (constant n c).coefficient (Monomial.one n) = c := by
      rw [coefficient, hterms, if_neg hc]
      simp
    rw [constant_nvars]
    exact congrArg some hcoefficient

theorem degreeOf_le (hp : p.Canonical n) {d : ℕ} (h : p.value.totalDegree ≤ d) :
    Expression.degreeOf p ≤ d := by
  unfold Expression.degreeOf degree?
  cases hmax : (p.terms.map fun t => t.1.degree).max? with
  | none => exact Nat.zero_le _
  | some e =>
    obtain ⟨t, ht, rfl⟩ := List.mem_map.1 (List.max?_mem hmax)
    have hsupport : t.1.exponents ∈ p.value.support := by
      rw [MvPolynomial.mem_support_iff, coeff_value_of_mem hp ht]
      exact (ExactField.isZero_eq_false_iff _).1 (hp.terms.nonzero t ht)
    refine le_trans ?_ ((MvPolynomial.le_totalDegree hsupport).trans h)
    exact (Monomial.degree_exponents t.1).ge

end Exact

end Poly

theorem Variables.indexOf?_nameOf {vars : Variables} (hnodup : vars.names.Nodup) {k : ℕ}
    (hk : k < vars.size) : vars.indexOf? (vars.nameOf k) = some k := by
  have hname : vars.nameOf k = vars.names[k] := List.getD_eq_getElem _ _ hk
  rw [indexOf?, hname, List.findIdx?_eq_some_iff_getElem]
  refine ⟨hk, beq_self_eq_true _, fun j hj => ?_⟩
  simpa using fun heq => hj.ne (hnodup.getElem_inj_iff.1 heq)

namespace Expression

open Token (Lexes Marks)
open MvPolynomial (totalDegree)

variable {C R : Type} [ExactReal R] [ExactComplex C R] [Numeral R] {vars : Variables}

theorem checkDegree_eq_ok {d : ℕ} (h : d ≤ maxDegree) : checkDegree d = .ok () :=
  if_neg (not_lt.2 h)

theorem exponentOf_constant (n : ℕ) {e : ℕ} (he : e ≤ maxDegree) :
    exponentOf (Poly.constant n (ComplexNumber.ofReal (e : R)) : Poly C) = .ok e := by
  have hreal : natural? (ComplexNumber.ofReal (e : R) : C) = some e := by
    rw [natural?, ComplexNumber.ofReal, ExactComplex.im_ofParts, ExactComplex.re_ofParts,
      if_pos ((ExactReal.beq_iff _ _).2 rfl), ExactReal.natValue?_natCast]
  simp only [exponentOf, Poly.asConstant?_constant, hreal, if_neg (not_lt.2 he)]

/-- The text has a tree at the level that expands to the polynomial, whose degree is bounded. -/
def Denotes (vars : Variables) (level : Level) (text : String) (a : MvPolynomial ℕ C) (d : ℕ) :
    Prop :=
  ∃ (ts : List (Token R)) (e : Expression R) (q : Poly C), Lexes text ts ∧ Derives level ts e ∧
    e.expand vars = .ok q ∧ q.Canonical vars.size ∧ q.value = a ∧ a.totalDegree ≤ d

namespace Denotes

variable {level level' : Level} {t u op : String} {a b : MvPolynomial ℕ C} {d d' : ℕ}

theorem lift (h : Denotes vars level t a d)
    (hlevel : ∀ (ts : List (Token R)) e, Derives level ts e → Derives level' ts e) :
    Denotes vars level' t a d := by
  obtain ⟨ts, e, q, hlexes, hderives, hq⟩ := h
  exact ⟨ts, e, q, hlexes, hlevel ts e hderives, hq⟩

theorem mono (h : Denotes vars level t a d) (hd : d ≤ d') : Denotes vars level t a d' := by
  obtain ⟨ts, e, q, hlexes, hderives, hexpand, hq, hvalue, hbound⟩ := h
  exact ⟨ts, e, q, hlexes, hderives, hexpand, hq, hvalue, hbound.trans hd⟩

theorem number {x : R} (h : Lexes t [.number x]) :
    Denotes vars .primary t (MvPolynomial.C (ComplexNumber.ofReal x : C)) 0 :=
  ⟨_, _, _, h, .number x, rfl, .constant _ _, Poly.value_constant _ _,
    (MvPolynomial.totalDegree_C _).le⟩

theorem unit (h : Lexes (R := R) "I" [.name "I"]) (hunit : "I" ∉ vars.names) :
    Denotes vars .primary "I" (MvPolynomial.C (ComplexNumber.unit : C)) 0 := by
  have hindex : vars.indexOf? "I" = none := by
    rw [Variables.indexOf?, List.findIdx?_eq_none_iff]
    exact fun name hname => beq_false_of_ne (ne_of_mem_of_not_mem hname hunit)
  refine ⟨_, _, _, h, .identifier "I", ?_, .constant _ _, Poly.value_constant _ _,
    (MvPolynomial.totalDegree_C _).le⟩
  simp only [expand, expandName, hindex, if_true]

theorem coordinate {k : ℕ} (hk : k < vars.size) (hnodup : vars.names.Nodup)
    (h : Lexes (R := R) (vars.nameOf k) [.name (vars.nameOf k)]) :
    Denotes vars .primary (vars.nameOf k) (MvPolynomial.X k : MvPolynomial ℕ C) 1 := by
  refine ⟨_, _, _, h, .identifier _, ?_, .coordinate _ k, Poly.value_coordinate hk,
    (MvPolynomial.totalDegree_X k).le⟩
  simp only [expand, expandName, Variables.indexOf?_nameOf hnodup hk]

theorem parentheses (h : Denotes vars .sum t a d) :
    Denotes vars .primary ("(" ++ t ++ ")") a d := by
  obtain ⟨ts, e, q, hlexes, hderives, hq⟩ := h
  exact ⟨_, e, q, hlexes.enclosed, hderives.parentheses, hq⟩

theorem negate (h : Denotes vars .signed t a d) : Denotes vars .signed ("-" ++ t) (-a) d := by
  obtain ⟨ts, e, q, hlexes, hderives, hexpand, hq, rfl, hdegree⟩ := h
  have hminus : Marks (R := R) "-" [.minus] := Token.marks_sign (c := '-') rfl
  refine ⟨_, _, -q, hlexes.marked hminus, hderives.negate, ?_, hq.neg, Poly.value_neg q, ?_⟩
  · simp only [expand, hexpand]
  · rwa [MvPolynomial.totalDegree_neg]

theorem pow (h : Denotes vars .primary t a d) {e : ℕ} (he : e ≤ maxDegree)
    (hu : Lexes u [.number (e : R)]) (hdegree : d * e ≤ maxDegree) :
    Denotes vars .power (t ++ "^" ++ u) (a ^ e) (d * e) := by
  obtain ⟨ts, base, q, hlexes, hderives, hexpand, hq, rfl, hbound⟩ := h
  have hcaret : Marks (R := R) "^" [.caret] := Token.marks_sign (c := '^') rfl
  have hexponent : Derives .signed [.number (e : R)] (.number (e : R)) :=
    .ofPower (.ofPrimary (.number _))
  refine ⟨_, _, q.pow e, hlexes.between hcaret hu, hderives.pow hexponent, ?_, hq.pow e,
    Poly.value_pow hq e, ?_⟩
  · have hcheck : degreeOf q * e ≤ maxDegree :=
      (Nat.mul_le_mul_right e (Poly.degreeOf_le hq hbound)).trans hdegree
    simp only [expand, hexpand, combine, exponentOf_constant _ he, checkDegree_eq_ok hcheck]
  · rw [mul_comm]
    exact (MvPolynomial.totalDegree_pow _ _).trans (Nat.mul_le_mul_left e hbound)

theorem mul (h : Denotes vars .product t a d) (h' : Denotes vars .signed u b d')
    (hdegree : d + d' ≤ maxDegree) :
    Denotes vars .product (t ++ "*" ++ u) (a * b) (d + d') := by
  obtain ⟨ts, left, p, hlexes, hderives, hexpand, hp, rfl, hbound⟩ := h
  obtain ⟨us, right, q, hlexes', hderives', hexpand', hq, rfl, hbound'⟩ := h'
  have hstar : Marks (R := R) "*" [.star] := Token.marks_sign (c := '*') rfl
  refine ⟨_, _, p * q, hlexes.between hstar hlexes', hderives.mul hderives', ?_, hp.mul hq,
    Poly.value_mul hp hq, ?_⟩
  · have hcheck : degreeOf p + degreeOf q ≤ maxDegree :=
      (Nat.add_le_add (Poly.degreeOf_le hp hbound) (Poly.degreeOf_le hq hbound')).trans hdegree
    simp only [expand, hexpand, hexpand', combine, checkDegree_eq_ok hcheck]
  · exact (MvPolynomial.totalDegree_mul _ _).trans (Nat.add_le_add hbound hbound')

theorem add (h : Denotes vars .sum t a d) (h' : Denotes vars .product u b d) :
    Denotes vars .sum (t ++ " + " ++ u) (a + b) d := by
  obtain ⟨ts, left, p, hlexes, hderives, hexpand, hp, rfl, hbound⟩ := h
  obtain ⟨us, right, q, hlexes', hderives', hexpand', hq, rfl, hbound'⟩ := h'
  have hplus : Marks (R := R) " + " [.plus] := Token.marks_spaced (c := '+') rfl
  refine ⟨_, _, p + q, hlexes.between hplus hlexes', hderives.add hderives', ?_, hp.add hq,
    Poly.value_add p q, (MvPolynomial.totalDegree_add _ _).trans (max_le hbound hbound')⟩
  simp only [expand, hexpand, hexpand', combine]

theorem sub (h : Denotes vars .sum t a d) (h' : Denotes vars .product u b d) :
    Denotes vars .sum (t ++ " - " ++ u) (a - b) d := by
  obtain ⟨ts, left, p, hlexes, hderives, hexpand, hp, rfl, hbound⟩ := h
  obtain ⟨us, right, q, hlexes', hderives', hexpand', hq, rfl, hbound'⟩ := h'
  have hminus : Marks (R := R) " - " [.minus] := Token.marks_spaced (c := '-') rfl
  refine ⟨_, _, p - q, hlexes.between hminus hlexes', hderives.sub hderives', ?_, hp.sub hq,
    Poly.value_sub p q, (MvPolynomial.totalDegree_sub _ _).trans (max_le hbound hbound')⟩
  simp only [expand, hexpand, hexpand', combine]

/-- A text that denotes the value of a polynomial is read as this polynomial. -/
theorem parse {p : Poly C} (hp : p.Canonical vars.size) (h : Denotes vars .sum t p.value d) :
    Poly.parse vars t = .ok p := by
  obtain ⟨ts, e, q, hlexes, hderives, hexpand, hq, hvalue, -⟩ := h
  obtain rfl := Poly.value_injective hq hp hvalue
  simp only [Poly.parse, Expression.parse, hlexes.scan_eq, ofTokens_of_derives t hderives, hexpand]

end Denotes

end Expression

end LieNormalForm

end
