import LieNormalForm.Proofs.Decimal
import LieNormalForm.Proofs.Value.Tuple
import LieNormalForm.Tuple.Text

/-!
# Polynomials and tuples read back

A rendered polynomial denotes the sum of its terms in the order of writing. That is the value of
the polynomial, and canonical polynomials with the same value are the same, so parsing gives the
polynomial back; for a tuple this holds in every component.
-/

noncomputable section

namespace LieNormalForm

open ComplexNumber (ofReal)
open Monomial (exponents)

namespace Expression

variable {C R : Type} [ExactReal R] [ExactComplex C R] [Numeral R] {vars : Variables}

omit [Numeral R] in
theorem termValue_eq_signed (t : Term C) :
    termValue t = if pullsSign t.2 then -MvPolynomial.monomial (exponents t.1) (magnitude t.2)
      else MvPolynomial.monomial (exponents t.1) (magnitude t.2) := by
  rw [termValue]
  conv_lhs => rw [eq_signed_magnitude t.2]
  split
  · rw [map_neg]
  · rfl

section Terms

variable {t : Term C} (hs : Spelled R vars) (hlen : t.1.length = vars.size) (h : Writable t)
include hs hlen h

theorem Spelled.denotes_first :
    Denotes vars .sum ((if pullsSign t.2 then "-" else "") ++ termText vars t) (termValue t)
      maxDegree := by
  have hterm := hs.denotes_term hlen h
  rw [termValue_eq_signed]
  split
  · exact (hterm.negative.mono h.degree).lift fun _ _ => .ofProduct
  · rw [String.empty_append]
    exact (hterm.positive.mono h.degree).lift fun _ _ => .ofProduct

theorem Spelled.denotes_later {text : String} {a : MvPolynomial ℕ C}
    (ha : Denotes vars .sum text a maxDegree) :
    Denotes vars .sum (text ++ laterTermText vars t) (a + termValue t) maxDegree := by
  have hterm := (hs.denotes_term hlen h).positive.mono h.degree
  rw [termValue_eq_signed, laterTermText, ← String.append_assoc]
  split
  · rw [← sub_eq_add_neg]
    exact ha.sub hterm
  · exact ha.add hterm

end Terms

theorem Spelled.denotes_terms (hs : Spelled R vars) {ts : List (Term C)}
    (hlen : ∀ t ∈ ts, t.1.length = vars.size) (h : ∀ t ∈ ts, Writable t) {text : String}
    {a : MvPolynomial ℕ C} (ha : Denotes vars .sum text a maxDegree) :
    Denotes vars .sum (text ++ String.join (ts.map (laterTermText vars))) (a + termsValue ts)
      maxDegree := by
  induction ts generalizing text a with
  | nil =>
    rw [List.map_nil, String.join_nil, String.append_empty, termsValue_nil, add_zero]
    exact ha
  | cons t ts ih =>
    rw [List.forall_mem_cons] at hlen h
    rw [List.map_cons, String.join_cons, ← String.append_assoc, termsValue_cons, ← add_assoc]
    exact ih hlen.2 h.2 (hs.denotes_later hlen.1 h.1 ha)

theorem Spelled.denotes_zero (hs : Spelled R vars) :
    Denotes vars .sum "0" (0 : MvPolynomial ℕ C) maxDegree := by
  have hlexes := hs.lexes_natural (Nat.zero_le maxDegree)
  rw [Nat.cast_zero] at hlexes
  have hzero : Denotes vars .primary "0" (MvPolynomial.C (ofReal 0 : C)) 0 := .number hlexes
  rw [ExactComplex.ofReal_zero, map_zero] at hzero
  exact (hzero.power.signed.product.mono (Nat.zero_le _)).lift fun _ _ => .ofProduct

theorem Spelled.denotes_render (hs : Spelled R vars) {p : Poly C}
    (hlen : ∀ t ∈ p.terms, t.1.length = vars.size) (h : ∀ t ∈ p.terms, Writable t) :
    Denotes vars .sum (p.render vars) p.value maxDegree := by
  have hperm := List.mergeSort_perm p.terms fun s t => Monomial.writtenBefore s.1 t.1
  have hvalue := (hperm.map termValue).sum_eq
  rw [Poly.value, termsValue, ← hvalue, Poly.render]
  cases hsorted : p.terms.mergeSort fun s t => Monomial.writtenBefore s.1 t.1 with
  | nil => exact hs.denotes_zero
  | cons t ts =>
    rw [hsorted] at hperm
    obtain ⟨hlenFirst, hlenLater⟩ :=
      List.forall_mem_cons.1 fun s hs => hlen s (hperm.mem_iff.1 hs)
    obtain ⟨hfirst, hlater⟩ := List.forall_mem_cons.1 fun s hs => h s (hperm.mem_iff.1 hs)
    exact hs.denotes_terms hlenLater hlater (hs.denotes_first hlenFirst hfirst)

theorem Spelled.parse_render_poly (hs : Spelled R vars) {p : Poly C} (hp : p.Canonical vars.size)
    (h : ∀ t ∈ p.terms, Writable t) : Poly.parse vars (p.render vars) = .ok p :=
  (hs.denotes_render hp.terms.length h).parse hp

theorem Spelled.parse_render_components (hs : Spelled R vars) {ps : List (Poly C)}
    (hps : ∀ p ∈ ps, p.Canonical vars.size) (h : ∀ p ∈ ps, ∀ t ∈ p.terms, Writable t) :
    (ps.map (Poly.render vars)).mapM (Poly.parse vars) = .ok ps := by
  have hall : ps.mapM (Poly.parse vars ∘ Poly.render vars) = pure (ps.map id) :=
    mapM_eq_pure fun p hp => hs.parse_render_poly (hps p hp) (h p hp)
  rw [List.mapM_map, hall, List.map_id]
  rfl

def xy : Variables := ⟨["x", "y"]⟩

/-- A polynomial with every form of coefficient:
`-4*I*x^3 + 2.5*x*y^2 + (-2 + 1*I)*x*y - y^2 + (0.5 - 0.75*I)*x + I*y + 1`. -/
def allForms : Poly GaussianRational where
  nvars := 2
  terms := [([0, 0], ⟨1, 0⟩), ([0, 1], ⟨0, 1⟩), ([0, 2], ⟨-1, 0⟩), ([1, 0], ⟨1 / 2, -3 / 4⟩),
    ([1, 1], ⟨-2, 1⟩), ([1, 2], ⟨5 / 2, 0⟩), ([3, 0], ⟨0, -4⟩)]

theorem spelled_xy : Spelled ℚ xy where
  nodup := by decide
  names := by
    intro name hname
    refine (Token.Lexes.name ?_).scan_eq
    rcases List.mem_pair.1 hname with rfl | rfl
    · exact ⟨'x', [], rfl, by decide, by decide, by decide +kernel, by simp⟩
    · exact ⟨'y', [], rfl, by decide, by decide, by decide +kernel, by simp⟩
  unit := by decide
  naturals e _ := Decimal.read?_toString e

theorem allForms_writable : ∀ t ∈ allForms.terms, Writable t := by
  have hdecimal : ∀ t ∈ allForms.terms, t.1.degree ≤ maxDegree ∧
      Decimal.readDigits? (Decimal.digits t.2.re) = some |t.2.re| ∧
      Decimal.readDigits? (Decimal.digits t.2.im) = some |t.2.im| := by decide +kernel
  intro t ht
  obtain ⟨hdegree, hre, him⟩ := hdecimal t ht
  exact ⟨hdegree, Decimal.printable hre, Decimal.printable him⟩

theorem allForms_canonical : allForms.Canonical xy.size := by decide +kernel

example : allForms.render xy =
    "-4*I*x^3 + 2.5*x*y^2 + (-2 + 1*I)*x*y - y^2 + (0.5 - 0.75*I)*x + I*y + 1" := by
  cbv

end Expression

end LieNormalForm

end
