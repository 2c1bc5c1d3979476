import LieNormalForm.Expression.Expand
import LieNormalForm.Stored.Read
import LieNormalForm.Proofs.Double

/-!
# Polynomials that can be obtained

Polynomials come from constructors, from stored values and from expressions, and further ones from
operations on polynomials in the same variables. Whatever the order of these steps, the result is
in canonical form. The arithmetic may round, overflow or leave the numbers: that a negation takes
nothing to zero is all that is asked of it.
-/

namespace LieNormalForm

variable {C R : Type} [RealNumber R] [ComplexNumber C R]

theorem Poly.Canonical.chop {n : ℕ} {p : Poly C} (h : p.Canonical n) (tolerance : R) :
    (p.chop tolerance).Canonical n :=
  ⟨h.nvars_eq, h.terms.mapCoefficients (chopCoefficient tolerance)⟩

namespace Expression

variable {vars : Variables}

theorem expandName_canonical {name : String} {p : Poly C} (h : expandName vars name = .ok p) :
    p.Canonical vars.size := by
  unfold expandName at h
  split at h
  · cases h
    exact .coordinate _ _
  · split at h
    · cases h
      exact .constant _ _
    · cases h

variable [Numeral R]

theorem combine_canonical {op : Operator} {n : ℕ} {p q r : Poly C} (hp : p.Canonical n)
    (hq : q.Canonical n) (h : combine op p q = .ok r) : r.Canonical n := by
  cases op with
  | add =>
    cases h
    exact hp.add hq
  | sub =>
    cases h
    exact hp.sub hq
  | mul =>
    simp only [combine] at h
    split at h
    · cases h
    · cases h
      exact hp.mul hq
  | div =>
    simp only [combine, divide] at h
    split at h
    · cases h
    · split at h
      · cases h
      · cases h
        exact hp.scale _
  | pow =>
    simp only [combine] at h
    split at h
    · cases h
    · split at h
      · cases h
      · cases h
        exact hp.pow _
  | other symbol => cases h

theorem expand_canonical [Poly.NegatesZero C] {e : Expression R} {p : Poly C}
    (h : e.expand vars = .ok p) : p.Canonical vars.size := by
  induction e generalizing p with
  | number value =>
    cases h
    exact .constant _ _
  | identifier name => exact expandName_canonical h
  | negate inner ih =>
    simp only [expand] at h
    split at h
    · cases h
    · rename_i q hq
      cases h
      exact (ih hq).neg
  | call function argument => cases h
  | binary op left right ihl ihr =>
    simp only [expand] at h
    split at h
    · cases h
    · rename_i p' hp
      split at h
      · cases h
      · rename_i q hq
        exact combine_canonical (ihl hp) (ihr hq) h

end Expression

theorem Stored.readPoly_canonical {v : Stored R} {p : Poly C} (h : readPoly v = .ok p) :
    p.Canonical p.nvars := by
  unfold readPoly at h
  split at h
  · cases h
  rename_i form _
  cases hform : form.toPoly with
  | error cause =>
    rw [hform] at h
    cases h
  | ok q =>
    rw [hform] at h
    cases h
    exact ((Poly.Canonical.zero form.nvars).addTerms hform).at_nvars

namespace Poly

variable [Numeral R]

/-- Everything that constructors, stored values, expressions and operations give. -/
inductive Obtainable : Poly C → Prop
  | zero (n : ℕ) : Obtainable (zero n)
  | constant (n : ℕ) (c : C) : Obtainable (constant n c)
  | coordinate (n k : ℕ) : Obtainable (coordinate n k)
  | ofTerm (m : Monomial) (c : C) : Obtainable (ofTerm m c)
  | ofTerms {n : ℕ} {ts : List (Term C)} {p : Poly C} : ofTerms n ts = .ok p → Obtainable p
  | read {v : Stored R} {p : Poly C} : Stored.readPoly v = .ok p → Obtainable p
  | expand {e : Expression R} {vars : Variables} {p : Poly C} :
      e.expand vars = .ok p → Obtainable p
  | addTerm {p : Poly C} (m : Monomial) (c : C) :
      Obtainable p → m.length = p.nvars → Obtainable (p.addTerm m c)
  | removeTerm {p : Poly C} (m : Monomial) : Obtainable p → Obtainable (p.removeTerm m)
  | add {p q : Poly C} : Obtainable p → Obtainable q → p.nvars = q.nvars → Obtainable (p + q)
  | sub {p q : Poly C} : Obtainable p → Obtainable q → p.nvars = q.nvars → Obtainable (p - q)
  | neg {p : Poly C} : Obtainable p → Obtainable (-p)
  | mul {p q : Poly C} : Obtainable p → Obtainable q → p.nvars = q.nvars → Obtainable (p * q)
  | mulWithin {p q : Poly C} (limit : Option ℕ) :
      Obtainable p → Obtainable q → p.nvars = q.nvars → Obtainable (p.mulWithin q limit)
  | pow {p : Poly C} (e : ℕ) : Obtainable p → Obtainable (p.pow e)
  | scale {p : Poly C} (c : C) : Obtainable p → Obtainable (p.scale c)
  | derivative {p : Poly C} (k : ℕ) : Obtainable p → Obtainable (p.derivative k)
  | homogeneousPart {p : Poly C} (d : ℕ) : Obtainable p → Obtainable (p.homogeneousPart d)
  | truncate {p : Poly C} (d : ℕ) : Obtainable p → Obtainable (p.truncate d)
  | chop {p : Poly C} (tolerance : R) : Obtainable p → Obtainable (p.chop tolerance)
  | substituteWithin {p q : Poly C} {images : List (Poly C)} {limit : Option ℕ} :
      Obtainable p → (∀ g ∈ images, Obtainable g) → p.substituteWithin images limit = .ok q →
      Obtainable q

theorem Obtainable.canonical [NegatesZero C] {p : Poly C} (h : p.Obtainable) :
    p.Canonical p.nvars := by
  -- only negations, on their own or in an expression, need what is known of the arithmetic
  induction h with
  | zero n => exact .zero n
  | constant n c => exact (Canonical.constant n c).at_nvars
  | coordinate n k => exact (Canonical.coordinate n k).at_nvars
  | ofTerm m c => exact .ofTerm m c
  | ofTerms h => exact ((Canonical.zero _).addTerms h).at_nvars
  | read h => exact Stored.readPoly_canonical h
  | expand h => exact (Expression.expand_canonical h).at_nvars
  | addTerm m c _ hm ih => exact ih.addTerm hm c
  | removeTerm m _ ih => exact ih.removeTerm m
  | add _ _ hn ihp ihq => exact ihp.add (hn ▸ ihq)
  | sub _ _ hn ihp ihq => exact ihp.sub (hn ▸ ihq)
  | neg _ ih => exact ih.neg
  | mul _ _ hn ihp ihq => exact ihp.mul (hn ▸ ihq)
  | mulWithin limit _ _ hn ihp ihq => exact ihp.mulWithin (hn ▸ ihq) limit
  | pow e _ ih => exact (ih.pow e).at_nvars
  | scale c _ ih => exact (ih.scale c).at_nvars
  | derivative k _ ih => exact ih.derivative k
  | homogeneousPart d _ ih => exact ih.filterTerms _
  | truncate d _ ih => exact ih.filterTerms _
  | chop tolerance _ ih => exact ih.chop tolerance
  | substituteWithin _ _ h _ ihimages => exact .substituteWithin ihimages h

/-- An obtainable polynomial stores no zero, each exponent list once, and none of wrong length. -/
theorem terms_of_obtainable [NegatesZero C] {p : Poly C} (h : p.Obtainable) :
    (∀ t ∈ p.terms, Coefficient.isZero t.2 = false) ∧ (∀ t ∈ p.terms, t.1.length = p.nvars) ∧
      (p.terms.map Prod.fst).Nodup := by
  have hterms := h.canonical.terms
  exact ⟨hterms.nonzero, hterms.length, hterms.sorted.nodup_monomials⟩

/-- With doubles: the square `(x + y)² − x²`, whose first term cancels. -/
theorem terms_of_obtainable_square :
    let p : Poly FloatComplex := pow (coordinate 2 0 + coordinate 2 1) 2 - ofTerm [2, 0] 1
    p.Obtainable ∧ p.size = 2 ∧ (∀ t ∈ p.terms, Coefficient.isZero t.2 = false) ∧
      (∀ t ∈ p.terms, t.1.length = p.nvars) ∧ (p.terms.map Prod.fst).Nodup := by
  intro p
  have hsum : Obtainable (coordinate 2 0 + coordinate 2 1 : Poly FloatComplex) :=
    .add (.coordinate 2 0) (.coordinate 2 1) rfl
  have hp : p.Obtainable := .sub (.pow 2 hsum) (.ofTerm [2, 0] 1) rfl
  exact ⟨hp, by decide +kernel, terms_of_obtainable hp⟩

end Poly

end LieNormalForm
