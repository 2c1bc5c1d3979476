import LieNormalForm.Proofs.Double
import LieNormalForm.Proofs.Homological.Termination
import LieNormalForm.Proofs.Support.NormalForm

/-!
# Which fields have a normal form

With a zero test that accepts exact zeros nothing goes wrong on the way to a normal form. A field
is refused for its shape, for the order, or because the nilpotent strategy meets a linear part that
is not triangular; all other fields have a normal form, in any arithmetic.
-/

namespace LieNormalForm

variable {C W : Type} [Weight W] [Coefficient C W]

namespace NormalForm

variable {field linear : Tuple C} {n N : ℕ} {eigenvalues : List C} {strategy : FormStrategy}
  {test : ZeroTest C} {s : Progress C}

theorem advance_ok (hX : field.Shaped n n) (hA : linear.Shaped n n) (hlinear : linear.Graded n n 1)
    (htriangular : strategy = .nilpotent → linear.isUpperTriangular = true)
    (htest : AcceptsZeros test) (hlength : eigenvalues.length = n)
    (hs : s.Graded field n N eigenvalues test) :
    ∃ s', advance field linear eigenvalues strategy test N s = .ok s' := by
  obtain ⟨t, forcing, hrows, hforcing, -, hF⟩ := hs.forcing hX
  obtain ⟨split, hsolve⟩ := FormStrategy.solve_ok hA hlinear htriangular htest hlength hF
  simp only [advance, hrows, hforcing, hsolve]
  exact ⟨_, rfl⟩

theorem progress_ok (hX : field.Shaped n n) (hA : linear.Shaped n n)
    (hlinear : linear.Graded n n 1)
    (htriangular : strategy = .nilpotent → linear.isUpperTriangular = true)
    (htest : AcceptsZeros test) (hlength : eigenvalues.length = n) (count : ℕ) :
    ∃ s, progress field linear eigenvalues strategy test count = .ok s := by
  induction count with
  | zero => exact ⟨_, rfl⟩
  | succ N ih =>
    obtain ⟨s, hok⟩ := ih
    simp only [progress, hok]
    exact advance_ok hX hA hlinear htriangular htest hlength (progress_graded hX hlinear hok)

/-- The first step meets a linear part that is not triangular, and no later one gets past it. -/
theorem progress_not_triangular (test : ZeroTest C) (hX : field.Shaped n n) (hA : linear.Shaped n n)
    (htriangular : linear.isUpperTriangular = false) (hlength : eigenvalues.length = n)
    (count : ℕ) :
    progress field linear eigenvalues .nilpotent test (count + 1) = .error .notTriangular := by
  induction count with
  | zero =>
    obtain ⟨t, forcing, hrows, hforcing, -, hF⟩ := (start_graded eigenvalues test hX).forcing hX
    have hsolve := FormStrategy.solve_not_triangular test hA htriangular hlength hF
    simp only [progress, advance, hrows, hforcing, hsolve]
  | succ N ih => rw [progress, ih]

end NormalForm

namespace Tuple

/-- Why a field has no normal form up to an order, if it has none. -/
def refusal? (X : Tuple C) (vars : Variables) (order : ℕ) (strategy : FormStrategy) :
    Option Error :=
  if X.size ≠ vars.size then some (.shape .normalFormInput vars.size X.size)
  else if X.nvars ≠ vars.size then some (.shape .normalFormInput vars.size X.nvars)
  else if order = 0 then some (.invalidOrder 0 1)
  else if strategy = .nilpotent ∧ 2 ≤ order ∧ ∃ i < X.size, ∃ j < i,
      Coefficient.isZero ((X.homogeneousPart 1).linearPart.entry i j) = false then
    some .notTriangular
  else none

variable {X : Tuple C} {vars : Variables} {order : ℕ} {strategy : FormStrategy}

section Refused

variable (test : ZeroTest C)

theorem normalFormWith_not_triangular (hX : X.Shaped vars.size vars.size) (horder : 2 ≤ order)
    (htriangular : (X.homogeneousPart 1).isUpperTriangular = false) :
    X.normalFormWith vars order .nilpotent test = .error .notTriangular := by
  have hA := hX.homogeneousPart 1
  obtain ⟨count, rfl⟩ := Nat.exists_eq_add_of_le' horder
  have hprogress := NormalForm.progress_not_triangular test hX hA htriangular
    hA.diagonalEigenvalues_length count
  simp [normalFormWith, checkField, checkFunctions, hX.size_eq, hX.nvars_eq, hprogress]

theorem normalFormWith_of_refusal (hX : X.WellFormed) {e : Error}
    (h : X.refusal? vars order strategy = some e) :
    X.normalFormWith vars order strategy test = .error e := by
  unfold refusal? at h
  split at h
  · rename_i hsize
    cases h
    simp [normalFormWith, checkField, hsize]
  rename_i hsize
  rw [not_not] at hsize
  split at h
  · rename_i hvars
    cases h
    simp [normalFormWith, checkField, checkFunctions, hsize, hvars]
  rename_i hvars
  rw [not_not] at hvars
  split at h
  · rename_i horder
    cases h
    simp [normalFormWith, checkField, checkFunctions, hsize, hvars, horder]
  split at h
  · rename_i hbelow
    obtain ⟨rfl, horder, hentry⟩ := hbelow
    cases h
    have hX := hX.shaped hsize hvars
    rw [hsize, ← isUpperTriangular_eq_false (hX.homogeneousPart 1)] at hentry
    exact normalFormWith_not_triangular test hX horder hentry
  · cases h

end Refused

theorem normalFormWith_of_not_refused {test : ZeroTest C} (htest : AcceptsZeros test)
    (hX : X.WellFormed) (h : X.refusal? vars order strategy = none) :
    ∃ N, X.normalFormWith vars order strategy test = .ok N := by
  unfold refusal? at h
  split at h
  · cases h
  rename_i hsize
  split at h
  · cases h
  rename_i hvars
  split at h
  · cases h
  rename_i horder
  split at h
  · cases h
  rename_i hbelow
  rw [not_not] at hsize hvars
  have hX := hX.shaped hsize hvars
  have hA := hX.homogeneousPart 1
  have hlinear := hX.graded_homogeneousPart 1
  have hprogress : ∃ s, NormalForm.progress X (X.homogeneousPart 1)
      (X.homogeneousPart 1).diagonalEigenvalues strategy test (order - 1) = .ok s := by
    by_cases htwo : 2 ≤ order
    · refine NormalForm.progress_ok hX hA hlinear (fun hstrategy => ?_) htest
        hA.diagonalEigenvalues_length (order - 1)
      by_contra hfalse
      rw [Bool.not_eq_true, isUpperTriangular_eq_false hA] at hfalse
      exact hbelow ⟨hstrategy, htwo, hsize ▸ hfalse⟩
    · obtain rfl : order = 1 := by omega
      exact ⟨_, rfl⟩
  obtain ⟨s, hok⟩ := hprogress
  have hs := NormalForm.progress_graded hX hlinear hok
  have hrows : order ≤ order - 1 + 1 := by omega
  obtain ⟨column, hcolumn, -, -⟩ := hs.filled.firstColumn hrows
  simp [normalFormWith, checkField, checkFunctions, hsize, hvars, horder, hok, hcolumn]

section Shear

/-- The field `(x + y², x + y)` over doubles, with a linear part below the diagonal. -/
def shearField : Tuple FloatComplex :=
  ⟨2, [⟨2, [([0, 2], ⟨1, 0⟩), ([1, 0], ⟨1, 0⟩)]⟩,
    ⟨2, [([0, 1], ⟨1, 0⟩), ([1, 0], ⟨1, 0⟩)]⟩]⟩

end Shear

end Tuple

end LieNormalForm
