import LieNormalForm.Proofs.Exact
import LieNormalForm.Proofs.Canonical.Tuple
import LieNormalForm.Double.Complex
import LieNormalForm.Stored.Form

/-!
# Stored forms taken back

A canonical polynomial is the polynomial of its stored form. Any other form is brought into order:
the coefficient of a monomial is added up over its entries from the first to the last, and a sum
that reaches zero is dropped, so that the next entry starts it again. The first exponent list of
the wrong length, or the first component in other variables, is what a form is refused for.
-/

namespace LieNormalForm

variable {C W : Type} [Coefficient C W]

/-- A coefficient, if there is one, with a further one added. -/
def accumulate (sum : Option C) (c : C) : Option C :=
  if Coefficient.isZero c then sum
  else
    match sum with
    | none => some c
    | some a => if Coefficient.isZero (a + c) then none else some (a + c)

/-- The sum in the order of the list, dropped where it reaches zero. -/
def runningSum (cs : List C) : Option C := cs.foldl accumulate none

/-- With exact coefficients the dropped sums do not show. -/
theorem runningSum_eq_sum {C W : Type} [Weight W] [ExactField C W] (cs : List C) :
    (runningSum cs).getD 0 = cs.sum := by
  have hstep : ∀ (sum : Option C) (c : C), (accumulate sum c).getD 0 = sum.getD 0 + c := by
    intro sum c
    unfold accumulate
    split
    · rename_i hc
      rw [(ExactField.isZero_iff c).1 hc, add_zero]
    · cases sum with
      | none => simp
      | some a =>
        dsimp only
        split
        · rename_i hsum
          exact ((ExactField.isZero_iff (a + c)).1 hsum).symm
        · rfl
  have hfold : ∀ (cs : List C) (sum : Option C),
      (cs.foldl accumulate sum).getD 0 = sum.getD 0 + cs.sum := by
    intro cs
    induction cs with
    | nil => simp
    | cons c cs ih =>
      intro sum
      rw [List.foldl_cons, ih, hstep, List.sum_cons, add_assoc]
  rw [runningSum, hfold, Option.getD_none, zero_add]

section Terms

/-- The coefficient that stands first at a monomial. -/
def termAt? (ts : List (Term C)) (m : Monomial) : Option C :=
  (ts.find? fun t => t.1 == m).map Prod.snd

/-- The coefficients of a monomial, in their order. -/
def entriesAt (ts : List (Term C)) (m : Monomial) : List C :=
  (ts.filter fun t => t.1 == m).map Prod.snd

theorem termAt?_cons (t : Term C) (ts : List (Term C)) (m : Monomial) :
    termAt? (t :: ts) m = if t.1 = m then some t.2 else termAt? ts m := by
  by_cases h : t.1 = m <;> simp [termAt?, h]

theorem entriesAt_cons (t : Term C) (ts : List (Term C)) (m : Monomial) :
    entriesAt (t :: ts) m = if t.1 = m then t.2 :: entriesAt ts m else entriesAt ts m := by
  by_cases h : t.1 = m <;> simp [entriesAt, h]

theorem AllAbove.termAt?_eq_none {m : Monomial} {ts : List (Term C)} (h : AllAbove m ts) :
    termAt? ts m = none := by
  rw [termAt?, Option.map_eq_none_iff, List.find?_eq_none]
  intro t ht heq
  have hlt := h t ht
  rw [eq_of_beq heq, Monomial.order_self] at hlt
  cases hlt

theorem termAt?_addLike {x y : Term C} {xs : List (Term C)} (hsame : x.1 = y.1)
    (hx : AllAbove x.1 xs) (m : Monomial) :
    termAt? (addLike x y xs) m =
      if y.1 = m then accumulate (some x.2) y.2 else termAt? xs m := by
  unfold addLike accumulate
  split
  · rw [termAt?_cons, hsame]
  · dsimp only
    split
    · split
      · rename_i hm
        rw [← hm, ← hsame, hx.termAt?_eq_none]
      · rfl
    · rw [termAt?_cons, hsame]

/-- Inserting a term adds to the coefficient of its monomial and leaves all others. -/
theorem termAt?_insertTerm (y : Term C) {xs : List (Term C)} (hxs : Sorted xs) (m : Monomial) :
    termAt? (insertTerm y xs) m =
      if y.1 = m then accumulate (termAt? xs m) y.2 else termAt? xs m := by
  have habove : ∀ {xs : List (Term C)}, AllAbove y.1 xs → termAt? (insertTerm y xs) m =
      if y.1 = m then accumulate (termAt? xs m) y.2 else termAt? xs m := by
    intro xs hxs
    rw [insertTerm_of_above hxs]
    by_cases hm : y.1 = m
    · rw [if_pos hm, ← hm, hxs.termAt?_eq_none]
      unfold accumulate
      split
      · exact hxs.termAt?_eq_none
      · rw [termAt?_cons, if_pos rfl]
    · rw [if_neg hm]
      split
      · rfl
      · rw [termAt?_cons, if_neg hm]
  induction hxs with
  | nil => exact habove (by simp [AllAbove])
  | cons x xs hx _ ih =>
    cases hxy : Monomial.order x.1 y.1 with
    | lt =>
      have hne : x.1 ≠ y.1 := by
        intro heq
        rw [heq, Monomial.order_self] at hxy
        cases hxy
      simp only [insertTerm, hxy, termAt?_cons, ih]
      grind
    | eq =>
      have hsame := Monomial.order_eq_iff.1 hxy
      simp only [insertTerm, hxy]
      rw [termAt?_addLike hsame hx, termAt?_cons, hsame]
      split <;> rfl
    | gt => exact habove (hx.cons (order_lt_of_gt hxy))

end Terms

namespace Poly

theorem coefficient_eq_termAt? (p : Poly C) (m : Monomial) :
    p.coefficient m = (termAt? p.terms m).getD 0 := rfl

variable {n : ℕ} {p q : Poly C} {ts : List (Term C)}

/-- The coefficients after adding up a list of terms. -/
theorem termAt?_addTerms (hp : p.Canonical n) (h : p.addTerms ts = .ok q) (m : Monomial) :
    termAt? q.terms m = (entriesAt ts m).foldl accumulate (termAt? p.terms m) := by
  induction ts generalizing p with
  | nil =>
    cases h
    rfl
  | cons t ts ih =>
    simp only [Poly.addTerms] at h
    split at h
    · rename_i hlength
      rw [ih (hp.addTerm (hlength.trans hp.nvars_eq) t.2) h, addTerm_terms,
        termAt?_insertTerm _ hp.terms.sorted, entriesAt_cons]
      split <;> rfl
    · cases h

theorem addTerms_eq_foldl (h : ∀ t ∈ ts, t.1.length = p.nvars) :
    p.addTerms ts = .ok (ts.foldl (fun q t => q.addTerm t.1 t.2) p) := by
  induction ts generalizing p with
  | nil => rfl
  | cons t ts ih =>
    obtain ⟨ht, hts⟩ := List.forall_mem_cons.1 h
    simp only [Poly.addTerms, if_pos ht]
    exact ih hts

/-- The first exponent list of the wrong length stops the sum. -/
theorem addTerms_error {t : Term C}
    (h : ts.find? (fun t => t.1.length != p.nvars) = some t) :
    p.addTerms ts = .error (.shape .monomialExponents p.nvars t.1.length) := by
  induction ts generalizing p with
  | nil => cases h
  | cons s ts ih =>
    simp only [Poly.addTerms]
    split
    · rename_i hlength
      rw [List.find?_cons_of_neg (by simpa using hlength)] at h
      exact ih h
    · rename_i hlength
      rw [List.find?_cons_of_pos (by simpa using hlength)] at h
      cases h
      rfl

theorem Canonical.toPoly_toForm (hp : p.Canonical n) : p.toForm.toPoly = .ok p := by
  have hlength : ∀ t ∈ p.terms, t.1.length = (Poly.zero p.nvars : Poly C).nvars :=
    fun t ht => (hp.terms.length t ht).trans hp.nvars_eq.symm
  rw [PolyForm.toPoly, toForm, ofTerms, addTerms_eq_foldl hlength, hp.at_nvars.foldl_addTerm]

end Poly

namespace PolyForm

variable {f : PolyForm C} {p : Poly C}

theorem toPoly_canonical (h : f.toPoly = .ok p) : p.Canonical f.nvars :=
  (Poly.Canonical.zero f.nvars).addTerms h

/-- With exact coefficients every coefficient is the sum of its entries. -/
theorem coefficient_toPoly {C W : Type} [Weight W] [ExactField C W] {f : PolyForm C} {p : Poly C}
    (h : f.toPoly = .ok p) (m : Monomial) : p.coefficient m = (entriesAt f.terms m).sum := by
  rw [Poly.coefficient_eq_termAt?, Poly.termAt?_addTerms (.zero f.nvars) h]
  exact runningSum_eq_sum _

theorem toPoly_error_iff :
    (∃ e, f.toPoly = .error e) ↔ ∃ t ∈ f.terms, t.1.length ≠ f.nvars := by
  constructor
  · rintro ⟨e, he⟩
    by_contra hnone
    push Not at hnone
    rw [toPoly, Poly.ofTerms, Poly.addTerms_eq_foldl hnone] at he
    cases he
  · rintro ⟨t, ht, hlength⟩
    cases hfind : f.terms.find? (fun t => t.1.length != f.nvars) with
    | none => exact absurd (List.find?_eq_none.1 hfind t ht) (by simpa using hlength)
    | some s => exact ⟨_, Poly.addTerms_error hfind⟩

end PolyForm

namespace TupleForm

variable {f : TupleForm C}

theorem toTuple_error_iff :
    (∃ e, f.toTuple = .error e) ↔ ∃ p ∈ f.components, p.nvars ≠ f.nvars := by
  have hfind : (f.components.find? fun p => p.nvars != f.nvars).isSome ↔
      ∃ p ∈ f.components, (p.nvars != f.nvars) = true := List.find?_isSome
  unfold toTuple Tuple.ofComponents
  split
  · rename_i bad hbad
    rw [hbad] at hfind
    simpa using hfind
  · rename_i hnone
    rw [hnone] at hfind
    simpa using hfind

end TupleForm

namespace Tuple

variable {f : Tuple C}

theorem WellFormed.mapM_toPoly (hf : f.WellFormed) :
    f.components.mapM (fun p => p.toForm.toPoly) = .ok f.components := by
  have hall : f.components.mapM (fun p => p.toForm.toPoly) = pure (f.components.map id) :=
    mapM_eq_pure fun p hp => (hf.canonical p hp).toPoly_toForm
  rwa [List.map_id] at hall

theorem WellFormed.toTuple_toForm (hf : f.WellFormed) : f.toForm.toTuple = .ok f := by
  have hnone : f.components.find? (fun p => p.nvars != f.nvars) = none := by
    rw [List.find?_eq_none]
    intro p hp
    simp [(hf.canonical p hp).nvars_eq]
  simp only [toForm, TupleForm.toTuple, ofComponents, hnone]

end Tuple

/-- What is stored comes back. A form of a polynomial is refused for its first exponent list of the
wrong length and for nothing else; what else it holds, repeated, zero and in any order, is added up
to a canonical polynomial, whose own form comes back unchanged. A form of a tuple is refused for
its first component in other variables and for nothing else. -/
theorem forms_faithful :
    (∀ (n : ℕ) (p : Poly C), p.Canonical n → p.toForm.toPoly = .ok p) ∧
    (∀ f : PolyForm C,
      ((∃ e, f.toPoly = .error e) ↔ ∃ t ∈ f.terms, t.1.length ≠ f.nvars) ∧
      (∀ t, f.terms.find? (fun t => t.1.length != f.nvars) = some t →
        f.toPoly = .error (.shape .monomialExponents f.nvars t.1.length)) ∧
      ∀ p, f.toPoly = .ok p → p.Canonical f.nvars ∧
        (∀ m, termAt? p.terms m = runningSum (entriesAt f.terms m)) ∧ p.toForm.toPoly = .ok p) ∧
    (∀ f : Tuple C, f.WellFormed →
      f.components.mapM (fun p => p.toForm.toPoly) = .ok f.components ∧ f.toForm.toTuple = .ok f) ∧
    ∀ f : TupleForm C,
      ((∃ e, f.toTuple = .error e) ↔ ∃ p ∈ f.components, p.nvars ≠ f.nvars) ∧
      (∀ p, f.components.find? (fun p => p.nvars != f.nvars) = some p →
        f.toTuple = .error (.shape .componentVariables f.nvars p.nvars)) ∧
      ∀ g, f.toTuple = .ok g → g.toForm = f := by
  refine ⟨fun n p hp => hp.toPoly_toForm, fun f => ⟨f.toPoly_error_iff, fun t ht => ?_,
    fun p hp => ?_⟩, fun f hf => ⟨hf.mapM_toPoly, hf.toTuple_toForm⟩,
    fun f => ⟨f.toTuple_error_iff, fun p hp => ?_, fun g hg => ?_⟩⟩
  · exact Poly.addTerms_error ht
  · have hcanonical := PolyForm.toPoly_canonical hp
    exact ⟨hcanonical, Poly.termAt?_addTerms (.zero f.nvars) hp, hcanonical.toPoly_toForm⟩
  · simp only [TupleForm.toTuple, Tuple.ofComponents, hp]
  · unfold TupleForm.toTuple Tuple.ofComponents at hg
    split at hg
    · cases hg
    · cases hg
      rfl

section Doubles

/-- The terms `2xy`, `x²`, `0·y`, `-2xy`, `3xy` in two variables, over doubles. -/
def mixedForm : PolyForm FloatComplex :=
  ⟨2, [([1, 1], ⟨2, 0⟩), ([2, 0], ⟨1, 0⟩), ([0, 1], ⟨0, 0⟩), ([1, 1], ⟨-2, 0⟩), ([1, 1], ⟨3, 0⟩)]⟩

/-- The polynomial `3xy + x²` over doubles. -/
def mixedSum : Poly FloatComplex := ⟨2, [([1, 1], ⟨3, 0⟩), ([2, 0], ⟨1, 0⟩)]⟩

theorem forms_faithful_mixed :
    mixedForm.toPoly = .ok mixedSum ∧ mixedSum.Canonical 2 ∧
      termAt? mixedSum.terms [1, 1] = runningSum [⟨2, 0⟩, ⟨-2, 0⟩, ⟨3, 0⟩] ∧
      mixedSum.toForm.toPoly = .ok mixedSum ∧
      (Tuple.mk 2 [mixedSum, mixedSum]).toForm.toTuple = .ok ⟨2, [mixedSum, mixedSum]⟩ := by
  have hform : mixedForm.toPoly = .ok mixedSum := rfl
  obtain ⟨-, hpoly, htuple, -⟩ := forms_faithful (C := FloatComplex)
  obtain ⟨hcanonical, hcoefficients, hback⟩ := (hpoly mixedForm).2.2 mixedSum hform
  exact ⟨hform, hcanonical, hcoefficients [1, 1], hback, (htuple _ (by decide +kernel)).2⟩

end Doubles

end LieNormalForm
