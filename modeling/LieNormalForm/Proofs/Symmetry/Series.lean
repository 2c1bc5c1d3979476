import LieNormalForm.Proofs.Symmetry.Basic
import LieNormalForm.Proofs.Support.Series
import LieNormalForm.Proofs.Graded.Table

/-!
# Symmetries of Lie series

Brackets, sums and parts of permuted fields are permuted, so the recurrence carries a table of
permuted entries to a permuted entry, step by step.
-/

namespace LieNormalForm

namespace Symmetry

variable {n : ℕ} (s : Symmetry n) {C R : Type} [ExactReal R] [ExactComplex C R] {f g : Tuple C}

theorem tuple_zeros : s.tuple (.zeros n n : Tuple C) = .zeros n n := by
  refine s.tuple_eq (.zeros n n) (.zeros n n) ?_
  rw [Tuple.value_zeros, sequence_zero]

theorem tuple_add (hf : f.Shaped n n) (hg : g.Shaped n n) :
    s.tuple (f + g) = s.tuple f + s.tuple g := by
  have hsf := s.shaped_tuple hf
  have hsg := s.shaped_tuple hg
  refine s.tuple_eq (hf.add hg) (hsf.add hsg) ?_
  rw [Tuple.value_add (hf.size_eq.trans hg.size_eq.symm), sequence_add,
    Tuple.value_add (hsf.size_eq.trans hsg.size_eq.symm), s.value_tuple hf, s.value_tuple hg]

theorem tuple_bracket (hf : f.Shaped n n) (hg : g.Shaped n n) :
    s.tuple (f.bracket g) = (s.tuple f).bracket (s.tuple g) := by
  have hsf := s.shaped_tuple hf
  have hsg := s.shaped_tuple hg
  refine s.tuple_eq (hf.bracket hg) (hsf.bracket hsg) ?_
  rw [Tuple.value_bracket hf hg, Tuple.value_bracket hsf hsg, s.value_tuple hf, s.value_tuple hg,
    derive_sequence, derive_sequence, sequence_sub]

theorem tuple_scaleWeight (hf : f.Shaped n n) (w : R) :
    s.tuple (f.scaleWeight w) = (s.tuple f).scaleWeight w := by
  refine s.tuple_eq (hf.scaleWeight w) ((s.shaped_tuple hf).scaleWeight w) ?_
  rw [Tuple.scaleWeight, Tuple.scaleWeight, Tuple.value_scale, Tuple.value_scale, s.value_tuple hf,
    sequence_smul, number_ofWeight]

theorem tuple_homogeneousPart (hf : f.Shaped n n) (d : ℕ) :
    s.tuple (f.homogeneousPart d) = (s.tuple f).homogeneousPart d := by
  refine s.tuple_eq (hf.homogeneousPart d) ((s.shaped_tuple hf).homogeneousPart d) ?_
  rw [Tuple.value_homogeneousPart, Tuple.value_homogeneousPart, s.value_tuple hf, part_sequence]

theorem tuple_seed (hf : f.Shaped n n) (offset m : ℕ) :
    s.tuple (f.seed offset m) = (s.tuple f).seed offset m := by
  rw [Tuple.seed, s.tuple_scaleWeight (hf.homogeneousPart _), s.tuple_homogeneousPart hf]
  rfl

theorem isZero_tuple (hf : f.Shaped n n) : (s.tuple f).isZero = f.isZero := by
  rw [Bool.eq_iff_iff, Tuple.isZero_iff_value (s.shaped_tuple hf), Tuple.isZero_iff_value hf,
    s.value_tuple hf, sequence_eq_zero_iff]

theorem tuple_weightedSumFrom {gs : List (Tuple C)} (hgs : ∀ g ∈ gs, g.Shaped n n) (i : ℕ)
    {sum : Tuple C} (hsum : sum.Shaped n n) :
    s.tuple (.weightedSumFrom i sum gs) = .weightedSumFrom i (s.tuple sum) (gs.map s.tuple) := by
  induction gs generalizing i sum with
  | nil => rfl
  | cons g gs ih =>
    obtain ⟨hg, hgs⟩ := List.forall_mem_cons.1 hgs
    have hscaled := hg.scaleWeight (Weight.inverseFactorial i)
    rw [List.map_cons, Tuple.weightedSumFrom, Tuple.weightedSumFrom,
      ih hgs (i + 1) (hsum.add hscaled), s.tuple_add hsum hscaled, s.tuple_scaleWeight hg]

theorem tuple_weightedSum (hf : f.Shaped n n) {gs : List (Tuple C)}
    (hgs : ∀ g ∈ gs, g.Shaped n n) :
    s.tuple (.weightedSum f gs) = .weightedSum (s.tuple f) (gs.map s.tuple) := by
  have hsf := s.shaped_tuple hf
  rw [Tuple.weightedSum, Tuple.weightedSum, hf.size_eq, hf.nvars_eq, hsf.size_eq, hsf.nvars_eq,
    s.tuple_weightedSumFrom hgs 0 (.zeros n n), tuple_zeros]

variable {t : GradedTable (Tuple C)} (ht : t.Holds (Tuple.Shaped n n))
include ht

theorem addTerms_tuple {ws : List (Tuple C)} (hws : ∀ w ∈ ws, w.Shaped n n) (i m j : ℕ)
    {e : Tuple C} (he : e.Shaped n n) :
    LieOperator.bracket.addTerms (t.map s.tuple) i m j (ws.map s.tuple) (s.tuple e) =
      (LieOperator.bracket.addTerms t i m j ws e).map s.tuple := by
  induction ws generalizing j e with
  | nil => rfl
  | cons w ws ih =>
    obtain ⟨hw, hws⟩ := List.forall_mem_cons.1 hws
    rw [List.map_cons, LieOperator.addTerms, LieOperator.addTerms, GradedTable.get_map]
    split
    · rfl
    cases hget : t.get (i - j) m with
    | error e => rfl
    | ok g =>
      have hg := ht _ _ g hget
      dsimp only [Except.map]
      -- a product with a zero factor is skipped in both runs
      rw [s.isZero_tuple hw, s.isZero_tuple hg]
      split
      · exact ih hws (j + 1) he
      · have hterm := (hw.bracket hg).scaleWeight (Weight.binomial i j)
        have hsum := s.tuple_add he hterm
        rw [s.tuple_scaleWeight (hw.bracket hg), s.tuple_bracket hw hg] at hsum
        have hstep := ih hws (j + 1) (he.add hterm)
        rw [hsum] at hstep
        exact hstep

/-- The recurrence over permuted entries gives the permuted entry. -/
theorem recurrence_tuple {ws : List (Tuple C)} (hws : ∀ w ∈ ws, w.Shaped n n) (i m : ℕ) :
    LieOperator.bracket.recurrence (ws.map s.tuple) (t.map s.tuple) i m =
      (LieOperator.bracket.recurrence ws t i m).map s.tuple := by
  rw [LieOperator.recurrence, LieOperator.recurrence, GradedTable.get_map]
  cases hget : t.get i (m + 1) with
  | error e => rfl
  | ok e => exact s.addTerms_tuple ht hws i m 0 (ht _ _ e hget)

end Symmetry

end LieNormalForm
