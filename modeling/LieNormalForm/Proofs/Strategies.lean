import LieNormalForm.Proofs.Canonical.NormalForm

/-!
# Both strategies on diagonal systems

For a diagonal linear part the strategies give the same normal form in any arithmetic. Both
solvers sort the terms of the right side, so they find the same split; the tables of the two runs
then stay equal, and with them every right side that is still to come.
-/

namespace LieNormalForm

variable {C W : Type} [Weight W] [Coefficient C W]

namespace NormalForm

variable {field linear : Tuple C} {n N : ℕ} {eigenvalues : List C} {test : ZeroTest C}
  {s : Progress C}

/-- One step of both runs from the same state. -/
theorem advance_agree (hX : field.Shaped n n) (hA : linear.Shaped n n)
    (hlinear : linear.Graded n n 1) (hdiagonal : linear.IsDiagonal)
    (hlength : eigenvalues.length = n) (hs : s.Graded field n N eigenvalues test)
    (hshaped : s.Shaped n) :
    (∃ s', ∀ strategy, advance field linear eigenvalues strategy test N s = .ok s') ∨
    ∀ strategy, ∃ k m,
      advance field linear eigenvalues strategy test N s = .error (.singularDivisor k m) := by
  obtain ⟨t, forcing, hrows, hforcing, -, hdegree⟩ := hs.forcing hX
  have hF := hshaped.recurrence (hshaped.fillRows hX hrows) hforcing
  rcases FormStrategy.solve_agree test hA hlinear hdiagonal hF hdegree hlength with
    ⟨split, hsolve⟩ | hsingular
  · refine .inl ⟨⟨t.insert (N + 1) 0 split.remainder, s.family ++ [split.generator]⟩, ?_⟩
    simp only [advance, hrows, hforcing, hsolve, implies_true]
  · refine .inr fun strategy => ?_
    obtain ⟨k, m, herror⟩ := hsingular strategy
    exact ⟨k, m, by simp only [advance, hrows, hforcing, herror]⟩

theorem progress_agree (test : ZeroTest C) (hX : field.Shaped n n) (hA : linear.Shaped n n)
    (hlinear : linear.Graded n n 1) (hdiagonal : linear.IsDiagonal)
    (hlength : eigenvalues.length = n) (count : ℕ) :
    (∃ s, ∀ strategy, progress field linear eigenvalues strategy test count = .ok s) ∨
    ∀ strategy, ∃ k m,
      progress field linear eigenvalues strategy test count = .error (.singularDivisor k m) := by
  induction count with
  | zero => exact .inl ⟨_, fun _ => rfl⟩
  | succ N ih =>
    rcases ih with ⟨s, hok⟩ | hsingular
    · have hs := progress_graded hX hlinear (hok .semisimple)
      have hshaped := progress_shaped hX hA (hok .semisimple)
      simp only [progress, hok]
      exact advance_agree hX hA hlinear hdiagonal hlength hs hshaped
    · refine .inr fun strategy => ?_
      obtain ⟨k, m, herror⟩ := hsingular strategy
      exact ⟨k, m, by simp only [progress, herror]⟩

end NormalForm

namespace Tuple

section Rotation

/-- The field `(ix + y² + x²y, −iy + x²)` over doubles, with the resonant term `x²y`. -/
def rotationField : Tuple FloatComplex :=
  ⟨2, [⟨2, [([0, 2], ⟨1, 0⟩), ([1, 0], ⟨0, 1⟩), ([2, 1], ⟨1, 0⟩)]⟩,
    ⟨2, [([0, 1], ⟨0, -1⟩), ([2, 0], ⟨1, 0⟩)]⟩]⟩

end Rotation

end Tuple

end LieNormalForm
