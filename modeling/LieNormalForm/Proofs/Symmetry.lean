import LieNormalForm.Proofs.Canonical.NormalForm
import LieNormalForm.Proofs.Symmetry.Series
import LieNormalForm.Proofs.Symmetry.Solver

/-!
# Normal forms and symmetries of the coordinates

The semisimple normal form of a permuted, possibly conjugated field is the permuted, possibly
conjugated normal form: at every step the two tables hold corresponding entries, and the two
homological equations corresponding splits. So a field that a symmetry takes to itself has a normal
form that the symmetry takes to itself.
-/

namespace LieNormalForm

namespace Symmetry

open NormalForm (Progress)

variable {n : ℕ} (s : Symmetry n) {C R : Type} [ExactReal R] [ExactComplex C R]

/-- The state of the loop in permuted variables. -/
def progress (p : Progress C) : Progress C := ⟨p.table.map s.tuple, p.family.map s.tuple⟩

variable {X A : Tuple C} {test : ZeroTest C} (hX : X.Shaped n n) (hA : A.Shaped n n)
  (htest : s.conjugates = true → ∀ d, test (ComplexNumber.conj d) = test d)

include hX in
theorem start_tuple : (⟨GradedTable.empty.insert 0 0 ((s.tuple X).seed 1 0), []⟩ : Progress C) =
    s.progress ⟨GradedTable.empty.insert 0 0 (X.seed 1 0), []⟩ := by
  rw [progress, GradedTable.insert_map, GradedTable.map_empty, s.tuple_seed hX]
  rfl

include hX hA htest

theorem advance_tuple {p : Progress C} (hp : p.Shaped n) (N : ℕ) :
    Follows s.progress (NormalForm.advance X A A.diagonalEigenvalues .semisimple test N p)
      (NormalForm.advance (s.tuple X) (s.tuple A) (s.tuple A).diagonalEigenvalues .semisimple test N
        (s.progress p)) := by
  have hseeded := hp.table.insert 0 (N + 1) (hX.seed 1 (N + 1))
  have hrows := GradedTable.fillRows_map (f := s.tuple)
    (fun t i m ht => s.recurrence_tuple ht hp.family i m)
    (fun t i m e ht he => hp.recurrence ht he) hseeded (N + 1) N
  rw [GradedTable.insert_map, s.tuple_seed hX] at hrows
  simp only [NormalForm.advance, progress, hrows]
  cases hok : GradedTable.fillRows (LieOperator.bracket.recurrence p.family) (N + 1) N
      (p.table.insert 0 (N + 1) (X.seed 1 (N + 1))) with
  | error e => exact .inr ⟨e, e, rfl, rfl⟩
  | ok t =>
    have ht := hp.fillRows hX hok
    have hforcing := s.recurrence_tuple ht hp.family N 0
    simp only [Except.map, hforcing]
    cases hget : LieOperator.bracket.recurrence p.family t N 0 with
    | error e => exact .inr ⟨e, e, rfl, rfl⟩
    | ok forcing =>
      simp only [FormStrategy.solve]
      rcases s.semisimple_tuple hA htest (hp.recurrence ht hget) with
        ⟨h, hsolve, hsolve'⟩ | ⟨e, e', hsolve, hsolve'⟩
      · refine .inl ⟨⟨t.insert (N + 1) 0 h.remainder, p.family ++ [h.generator]⟩, ?_, ?_⟩
        · rw [hsolve]
        · rw [hsolve', progress, GradedTable.insert_map, List.map_append]
          rfl
      · exact .inr ⟨e, e', by rw [hsolve], by rw [hsolve']⟩

theorem progress_tuple (count : ℕ) :
    Follows s.progress (NormalForm.progress X A A.diagonalEigenvalues .semisimple test count)
      (NormalForm.progress (s.tuple X) (s.tuple A) (s.tuple A).diagonalEigenvalues .semisimple test
        count) := by
  induction count with
  | zero => exact .inl ⟨_, rfl, congrArg Except.ok (s.start_tuple hX)⟩
  | succ N ih =>
    rcases ih with ⟨p, hok, hok'⟩ | ⟨e, e', herror, herror'⟩
    · simp only [NormalForm.progress, hok, hok']
      exact s.advance_tuple hX hA htest (NormalForm.progress_shaped hX hA hok) N
    · simp only [NormalForm.progress, herror, herror']
      exact .inr ⟨e, e', rfl, rfl⟩

end Symmetry

namespace Tuple

variable {C R : Type} [ExactReal R] [ExactComplex C R] {X : Tuple C} {vars : Variables}

theorem checkField_tuple (s : Symmetry vars.size) (X : Tuple C) (what : Checked) :
    (s.tuple X).checkField vars what = X.checkField vars what := by
  have hsize : (s.tuple X).size = X.size := by
    rw [size, Symmetry.tuple, List.length_map, List.length_range]
  rw [checkField, checkField, hsize]
  rfl

theorem normalFormWith_tuple {s : Symmetry vars.size} {test : ZeroTest C} (hX : X.WellFormed)
    (htest : s.conjugates = true → ∀ d, test (ComplexNumber.conj d) = test d) (order : ℕ) :
    Follows s.normalForm (X.normalFormWith vars order .semisimple test)
      ((s.tuple X).normalFormWith vars order .semisimple test) := by
  simp only [normalFormWith, checkField_tuple s]
  cases hcheck : X.checkField vars .normalFormInput with
  | error e => exact .inr ⟨e, e, rfl, rfl⟩
  | ok _ =>
    obtain ⟨hsize, hvars⟩ := checkField_ok hcheck
    have hX := hX.shaped hsize hvars
    have hA := hX.homogeneousPart 1
    rw [← s.tuple_homogeneousPart hX]
    dsimp only
    by_cases horder : order < 1
    · simp only [horder, if_true]
      exact .inr ⟨_, _, rfl, rfl⟩
    simp only [horder, if_false]
    rcases s.progress_tuple hX hA htest (order - 1) with ⟨p, hok, hok'⟩ | ⟨e, e', herror, herror'⟩
    · have hp := NormalForm.progress_shaped hX hA hok
      have hcolumn := GradedTable.firstColumn_map (f := s.tuple) p.table order
      simp only [hok, hok', Symmetry.progress, hcolumn]
      cases hcomponents : p.table.firstColumn order with
      | error e => exact .inr ⟨e, e, rfl, rfl⟩
      | ok components =>
        refine .inl ⟨_, rfl, congrArg Except.ok ?_⟩
        rw [Symmetry.normalForm, s.tuple_weightedSum hX (hp.table.firstColumn hcomponents),
          s.tuple_weightedSum hX hp.family, s.diagonalEigenvalues_tuple hA]
    · simp only [herror, herror']
      exact .inr ⟨e, e', rfl, rfl⟩

/-- Symmetries of the coordinates carry semisimple normal forms to semisimple normal forms, and a
field with a symmetry has a normal form with this symmetry. The exact test and the tolerances take
conjugate divisors alike. -/
theorem normalFormWith_symmetric {s : Symmetry vars.size} {test : ZeroTest C} (hX : X.WellFormed)
    (htest : s.conjugates = true → ∀ d, test (ComplexNumber.conj d) = test d) (order : ℕ) :
    ((∃ N, X.normalFormWith vars order .semisimple test = .ok N ∧
      (s.tuple X).normalFormWith vars order .semisimple test = .ok (s.normalForm N)) ∨
    ∃ e e', X.normalFormWith vars order .semisimple test = .error e ∧
      (s.tuple X).normalFormWith vars order .semisimple test = .error e') ∧
    (s.tuple X = X → ∀ N, X.normalFormWith vars order .semisimple test = .ok N →
      s.normalForm N = N) ∧
    (∀ d : C, (ResonanceTest.exact : ResonanceTest C R).zeroTest (ComplexNumber.conj d) =
      (ResonanceTest.exact : ResonanceTest C R).zeroTest d) ∧
    ∀ (epsilon : R) (d : C),
      (ResonanceTest.tolerance epsilon).zeroTest (ComplexNumber.conj d) =
        (ResonanceTest.tolerance epsilon).zeroTest d := by
  refine ⟨normalFormWith_tuple hX htest order, fun hsymmetric N hN => ?_,
    ExactComplex.isZero_conj, fun epsilon d => ?_⟩
  · rcases normalFormWith_tuple hX htest order with ⟨M, hM, hM'⟩ | ⟨e, _, he, -⟩
    · obtain rfl := Except.ok.inj (hM.symm.trans hN)
      rw [hsymmetric, hM] at hM'
      exact (Except.ok.inj hM').symm
    · rw [hN] at he
      cases he
  · rw [ResonanceTest.zeroTest_tolerance, ResonanceTest.zeroTest_tolerance, ExactComplex.norm_conj]

section Reality

/-- The variables exchanged and the coefficients conjugated. -/
def conjugatePair : Symmetry 2 := ⟨Equiv.swap 0 1, true⟩

/-- The variables exchanged, the coefficients as they are. -/
def exchangedPair : Symmetry 2 := ⟨Equiv.swap 0 1, false⟩

/-- The field `(i·x + (1 + i)·x²y + y², −i·y + (1 − i)·xy² + x²)`, real in the sense that
exchanging and conjugating takes it to itself. -/
def realField : Tuple GaussianRational :=
  ⟨2, [⟨2, [([0, 2], 1), ([1, 0], ⟨0, 1⟩), ([2, 1], ⟨1, 1⟩)]⟩,
    ⟨2, [([0, 1], ⟨0, -1⟩), ([1, 2], ⟨1, -1⟩), ([2, 0], 1)]⟩]⟩

theorem normalFormWith_symmetric_real :
    conjugatePair.tuple realField = realField ∧
    ∃ N, realField.normalFormWith ⟨["x", "y"]⟩ 3 .semisimple Coefficient.isZero = .ok N ∧
      conjugatePair.normalForm N = N ∧
      (exchangedPair.tuple realField).normalFormWith ⟨["x", "y"]⟩ 3 .semisimple
        Coefficient.isZero = .ok (exchangedPair.normalForm N) := by
  have hX : realField.WellFormed := by decide +kernel
  have hreal : conjugatePair.tuple realField = realField := by decide +kernel
  obtain ⟨N, hN⟩ : ∃ N,
      realField.normalFormWith ⟨["x", "y"]⟩ 3 .semisimple Coefficient.isZero = .ok N :=
    exists_eq_ok_of_isOk (by decide +kernel)
  obtain ⟨-, hsymmetric, -⟩ := @normalFormWith_symmetric _ _ _ _ _ ⟨["x", "y"]⟩ conjugatePair
    Coefficient.isZero hX (fun _ => ExactComplex.isZero_conj) 3
  refine ⟨hreal, N, hN, hsymmetric hreal N hN, ?_⟩
  obtain ⟨⟨M, hM, hM'⟩ | ⟨e, -, he, -⟩, -⟩ := @normalFormWith_symmetric _ _ _ _ _ ⟨["x", "y"]⟩
    exchangedPair Coefficient.isZero hX (fun h => by cases h) 3
  · obtain rfl := Except.ok.inj (hM.symm.trans hN)
    exact hM'
  · rw [hN] at he
    cases he

end Reality

end Tuple

end LieNormalForm
