import LieNormalForm.Graded.Series
import LieNormalForm.Homological.Equation

/-!
# Normal forms

A field with linear part `A` is brought to normal form degree by degree. The table `F[i,m]`
starts from the seeds of the field, offset by one degree; on every anti-diagonal the entry
of the first column is not known but the right side of a homological equation, whose
remainder becomes the entry and whose solution becomes the next term of the generator.
-/

namespace LieNormalForm

/-- What to do with terms: which test, and which solver. -/
structure NormalFormOptions (C R : Type) where
  resonanceTest : ResonanceTest C R := .exact
  formStrategy : FormStrategy := .semisimple

/-- A normal form with the generator that leads to it. -/
structure NormalForm (C : Type) where
  /-- `Σ_i components_i / i!`. -/
  field : Tuple C
  /-- `Σ_i family_i / i!`. -/
  generator : Tuple C
  /-- The diagonal of the linear part. -/
  eigenvalues : List C
  /-- The terms of the generator, term `i` of degree `i + 2`. -/
  family : List (Tuple C)
  /-- The terms of the normal form, term `i` of degree `i + 1`. -/
  components : List (Tuple C)

namespace NormalForm

variable {C W : Type} [Weight W] [Coefficient C W]

/-- The filled part of the table, and the generator terms found so far. -/
structure Progress (C : Type) where
  table : GradedTable (Tuple C)
  family : List (Tuple C)

/-- Fills anti-diagonal `n + 1` and solves for generator term `n`. -/
def advance (field linear : Tuple C) (eigenvalues : List C) (strategy : FormStrategy)
    (test : ZeroTest C) (n : Nat) (s : Progress C) : Except Error (Progress C) :=
  let next := LieOperator.bracket.recurrence s.family
  match GradedTable.fillRows next (n + 1) n (s.table.insert 0 (n + 1) (field.seed 1 (n + 1))) with
  | .error e => .error e
  | .ok t =>
    match next t n 0 with
    | .error e => .error e
    | .ok forcing =>
      match strategy.solve linear eigenvalues forcing test with
      | .error e => .error e
      | .ok split =>
        .ok ⟨t.insert (n + 1) 0 split.remainder, s.family ++ [split.generator]⟩

/-- The table after `count` steps. -/
def progress (field linear : Tuple C) (eigenvalues : List C) (strategy : FormStrategy)
    (test : ZeroTest C) : Nat → Except Error (Progress C)
  | 0 => .ok ⟨GradedTable.empty.insert 0 0 (field.seed 1 0), []⟩
  | n + 1 =>
    match progress field linear eigenvalues strategy test n with
    | .error e => .error e
    | .ok s => advance field linear eigenvalues strategy test n s

section Success

variable {field linear : Tuple C} {eigenvalues : List C} {strategy : FormStrategy}
  {test : ZeroTest C}

/-- All that a step does that gives a result. -/
theorem advance_eq_ok {n : Nat} {s s' : Progress C}
    (h : advance field linear eigenvalues strategy test n s = .ok s') :
    ∃ t forcing split,
      GradedTable.fillRows (LieOperator.bracket.recurrence s.family) (n + 1) n
        (s.table.insert 0 (n + 1) (field.seed 1 (n + 1))) = .ok t ∧
      LieOperator.bracket.recurrence s.family t n 0 = .ok forcing ∧
      strategy.solve linear eigenvalues forcing test = .ok split ∧
      s' = ⟨t.insert (n + 1) 0 split.remainder, s.family ++ [split.generator]⟩ := by
  unfold advance at h
  dsimp only at h
  split at h
  · cases h
  · rename_i t hrows
    split at h
    · cases h
    · rename_i forcing hforcing
      split at h
      · cases h
      · rename_i split hsolve
        cases h
        exact ⟨t, forcing, split, hrows, hforcing, hsolve, rfl⟩

/-- What holds before the first step and is kept by every step holds after all of them. -/
theorem progress_keeps {P : Nat → Progress C → Prop}
    (hstart : P 0 ⟨GradedTable.empty.insert 0 0 (field.seed 1 0), []⟩)
    (hstep : ∀ n s s', advance field linear eigenvalues strategy test n s = .ok s' → P n s →
      P (n + 1) s') {count : Nat} {s : Progress C}
    (h : progress field linear eigenvalues strategy test count = .ok s) : P count s := by
  induction count generalizing s with
  | zero =>
    cases h
    exact hstart
  | succ n ih =>
    simp only [progress] at h
    split at h
    · cases h
    · rename_i s₀ h₀
      exact hstep n s₀ s h (ih h₀)

theorem progress_family {count : Nat} {s : Progress C}
    (h : progress field linear eigenvalues strategy test count = .ok s) :
    s.family.length = count := by
  refine progress_keeps (P := fun n s => s.family.length = n) rfl (fun n s s' h hs => ?_) h
  obtain ⟨t, forcing, split, -, -, -, rfl⟩ := advance_eq_ok h
  simp [hs]

end Success

end NormalForm

namespace Tuple

variable {C W : Type} [Weight W] [Coefficient C W]

/-- The normal form of a field up to the given order, with any zero test. The linear part has
to be in Jordan form; constant terms are left out. -/
def normalFormWith (field : Tuple C) (vars : Variables) (order : Nat) (strategy : FormStrategy)
    (test : ZeroTest C) : Except Error (NormalForm C) :=
  match field.checkField vars .normalFormInput with
  | .error e => .error e
  | .ok _ =>
    if order < 1 then .error (.invalidOrder order 1)
    else
      let linear := field.homogeneousPart 1
      let eigenvalues := linear.diagonalEigenvalues
      match NormalForm.progress field linear eigenvalues strategy test (order - 1) with
      | .error e => .error e
      | .ok s =>
        match s.table.firstColumn order with
        | .error e => .error e
        | .ok components =>
          .ok ⟨weightedSum field components, weightedSum field s.family, eigenvalues, s.family,
            components⟩

/-- The normal form of a field with a named zero test. -/
def normalForm {R : Type} [RealNumber R] [Normed C R] (field : Tuple C) (vars : Variables)
    (order : Nat) (options : NormalFormOptions C R) : Except Error (NormalForm C) :=
  field.normalFormWith vars order options.formStrategy options.resonanceTest.zeroTest

/-- The parts of a normal form that succeeds: the loop, and the sums of what it found. -/
theorem normalFormWith_eq_ok {X : Tuple C} {vars : Variables} {order : Nat} {strategy : FormStrategy}
    {test : ZeroTest C} {N : NormalForm C} (h : X.normalFormWith vars order strategy test = .ok N) :
    X.checkField vars .normalFormInput = .ok () ∧ 1 ≤ order ∧ ∃ s components,
      NormalForm.progress X (X.homogeneousPart 1) (X.homogeneousPart 1).diagonalEigenvalues
        strategy test (order - 1) = .ok s ∧ s.table.firstColumn order = .ok components ∧
      N = ⟨weightedSum X components, weightedSum X s.family,
        (X.homogeneousPart 1).diagonalEigenvalues, s.family, components⟩ := by
  unfold normalFormWith at h
  split at h
  · cases h
  · rename_i hcheck
    split at h
    · cases h
    · rename_i horder
      dsimp only at h
      split at h
      · cases h
      · rename_i s hs
        split at h
        · cases h
        · rename_i components hcomponents
          cases h
          exact ⟨hcheck, by omega, s, components, hs, hcomponents, rfl⟩

end Tuple

end LieNormalForm
