import LieNormalForm.Proofs.Homological.Nilpotent
import LieNormalForm.Proofs.Homological.Semisimple
import LieNormalForm.Homological.Equation

/-!
# Both solvers

Over exact coefficients a solver that succeeds returns the one solution of the homological
equation, whatever the zero test. The solution has the degree of the forcing term.
-/

noncomputable section

namespace LieNormalForm

variable {C W : Type} [Weight W] [ExactField C W] {strategy : FormStrategy}
  {linear forcing : Tuple C} {test : ZeroTest C} {s : Split C}

theorem FormStrategy.solve_shapes {eigenvalues : List C}
    (h : strategy.solve linear eigenvalues forcing test = .ok s) :
    forcing.size = forcing.nvars ∧ linear.size = forcing.nvars ∧ linear.nvars = forcing.nvars := by
  have hinput : Split.checkInput linear eigenvalues forcing = .ok () := by
    cases strategy with
    | semisimple =>
      simp only [solve, Split.semisimple] at h
      split at h
      · cases h
      · assumption
    | nilpotent =>
      simp only [solve, Split.nilpotent, Split.nilpotentWithin] at h
      split at h
      · cases h
      · assumption
  obtain ⟨hforcing, hsize, hvars, _⟩ := Split.checkInput_ok hinput
  exact ⟨hforcing, hsize, hvars⟩

/-- Either solver solves the equation for a triangular linear part. -/
theorem FormStrategy.solve_solves {n : ℕ} (hA : linear.Shaped n n) (hlinear : linear.IsLinear)
    (hdiagonal : strategy = .semisimple → linear.IsDiagonal) (hF : forcing.Shaped n n)
    (h : strategy.solve linear linear.diagonalEigenvalues forcing test = .ok s) :
    Triangular linear.value ∧ s.Solves linear linear.diagonalEigenvalues forcing test := by
  cases strategy with
  | semisimple =>
    have hdiagonal := (hdiagonal rfl).diagonal hA hlinear
    exact ⟨hdiagonal.triangular, Split.semisimple_solves hA hdiagonal hF h⟩
  | nilpotent => exact Split.nilpotent_solves hA hlinear hF h

namespace Split.Solves

variable {n d : ℕ}

theorem homogeneousPart (hA : linear.Shaped n n) (hlinear : linear.IsLinear)
    (hF : forcing.Shaped n n) (hd : forcing.value ∈ homogeneous d)
    {eigenvalues : List C} (h : s.Solves linear eigenvalues forcing test) :
    (⟨s.remainder.homogeneousPart d, s.generator.homogeneousPart d⟩ : Split C).Solves linear
      eigenvalues forcing test := by
  obtain ⟨hG, hY⟩ := h.shapes hF
  have hterms : ∀ (f : Tuple C) (k : ℕ), ∀ t ∈ ((f.homogeneousPart d).component k).terms,
      t ∈ (f.component k).terms := by
    intro f k t ht
    rw [Tuple.component, Tuple.homogeneousPart, Tuple.map, List.getD_eq_getElem?_getD,
      List.getElem?_map] at ht
    rw [Tuple.component, List.getD_eq_getElem?_getD]
    cases hk : f.components[k]? with
    | none =>
      rw [hk] at ht
      exact ht
    | some p =>
      rw [hk] at ht
      exact List.mem_of_mem_filter ht
  refine .of_value hA hF (hG.homogeneousPart d) (hY.homogeneousPart d) ?_
    (fun k t ht => h.resonant k t (hterms _ k t ht)) fun k t ht => h.eliminable k t (hterms _ k t ht)
  have hparts := congrArg (part d) (h.value_equation hA hF)
  rw [map_add, ← LieOperator.act_bracket, part_bracket_linear hlinear.homogeneous,
    part_eq_self hd] at hparts
  rw [Tuple.value_homogeneousPart, Tuple.value_homogeneousPart]
  exact hparts

theorem mem_homogeneous (hA : linear.Shaped n n) (hlinear : linear.IsLinear)
    (htriangular : Triangular linear.value) (hF : forcing.Shaped n n)
    (hd : forcing.value ∈ homogeneous d)
    (h : s.Solves linear linear.diagonalEigenvalues forcing test) :
    s.remainder.value ∈ homogeneous d ∧ s.generator.value ∈ homogeneous d := by
  have hsame := h.unique hA htriangular hF (h.homogeneousPart hA hlinear hF hd)
  have hremainder : s.remainder.homogeneousPart d = s.remainder :=
    congrArg Split.remainder hsame
  have hgenerator : s.generator.homogeneousPart d = s.generator :=
    congrArg Split.generator hsame
  constructor
  · rw [← hremainder, Tuple.value_homogeneousPart]
    exact part_mem d _
  · rw [← hgenerator, Tuple.value_homogeneousPart]
    exact part_mem d _

end Split.Solves

/-- A solver that succeeds returns a solution of the homological equation, and there is no
other: the linear part has terms of degree one only, the eigenvalues are its diagonal, and for
the semisimple strategy it is diagonal. -/
theorem FormStrategy.solve_unique_solution (hA : linear.WellFormed) (hlinear : linear.IsLinear)
    (hdiagonal : strategy = .semisimple → linear.IsDiagonal) (hF : forcing.WellFormed)
    (h : strategy.solve linear linear.diagonalEigenvalues forcing test = .ok s) :
    s.Solves linear linear.diagonalEigenvalues forcing test ∧
      ∀ s' : Split C, s'.Solves linear linear.diagonalEigenvalues forcing test → s' = s := by
  obtain ⟨hforcing, hsize, hvars⟩ := solve_shapes h
  have hA := hA.shaped hsize hvars
  have hF := hF.shaped hforcing rfl
  obtain ⟨htriangular, hsolves⟩ := solve_solves hA hlinear hdiagonal hF h
  exact ⟨hsolves, fun s' hs' => hsolves.unique hA htriangular hF hs'⟩

section Coupled

/-- The linear field `(2x + y, y)`. -/
def coupledLinear : Tuple ℚ := ⟨2, [⟨2, [([0, 1], 1), ([1, 0], 2)]⟩, ⟨2, [([0, 1], 1)]⟩]⟩

/-- The forcing term `(2y², xy)`. -/
def coupledForcing : Tuple ℚ := ⟨2, [⟨2, [([0, 2], 2)]⟩, ⟨2, [([1, 1], 1)]⟩]⟩

/-- The generator `(−xy/2, y²/2 − xy/2)` and the resonant remainder `(y², 0)`. -/
def coupledSplit : Split ℚ where
  remainder := ⟨2, [⟨2, [([0, 2], 1)]⟩, ⟨2, []⟩]⟩
  generator := ⟨2, [⟨2, [([1, 1], -1 / 2)]⟩, ⟨2, [([0, 2], 1 / 2), ([1, 1], -1 / 2)]⟩]⟩

theorem solve_unique_solution_coupled :
    coupledSplit.Solves coupledLinear coupledLinear.diagonalEigenvalues coupledForcing
        Coefficient.isZero ∧
      ∀ s' : Split ℚ, s'.Solves coupledLinear coupledLinear.diagonalEigenvalues coupledForcing
        Coefficient.isZero → s' = coupledSplit := by
  have hdiagonal : FormStrategy.nilpotent = .semisimple → coupledLinear.IsDiagonal :=
    fun h => by cases h
  have hsolve : FormStrategy.nilpotent.solve coupledLinear coupledLinear.diagonalEigenvalues
      coupledForcing Coefficient.isZero = .ok coupledSplit := by decide +kernel
  exact FormStrategy.solve_unique_solution (by decide +kernel) (by decide +kernel) hdiagonal
    (by decide +kernel) hsolve

end Coupled

end LieNormalForm

end
