import LieNormalForm.Proofs.Action
import LieNormalForm.Proofs.LieSeries.Bracket

/-!
# Fields form a Lie algebra

Over exact coefficients the bracket of two fields always gives a field, in canonical form. It is
linear in both arguments, changes its sign when they are exchanged, and obeys the identity of
Jacobi. All laws hold as equations of tuples, because a tuple in canonical form is known by the
polynomials that it stands for.
-/

noncomputable section

namespace LieNormalForm

variable {C W : Type} [Weight W] [ExactField C W]

namespace Tuple

variable {n : ℕ} {X Y Z : Tuple C}

theorem bracket_value (hX : X.Shaped n n) (hY : Y.Shaped n n) :
    (X.bracket Y).value = fieldBracket X.value Y.value := value_bracket hX hY

theorem lieBracket_eq_ok {vars : Variables} (hX : X.Shaped vars.size vars.size)
    (hY : Y.Shaped vars.size vars.size) : X.lieBracket Y vars = .ok (X.bracket Y) := by
  simp [lieBracket, checkField, checkFunctions, hX.size_eq, hX.nvars_eq, hY.size_eq, hY.nvars_eq]

section Laws

variable (hX : X.Shaped n n) (hY : Y.Shaped n n) (hZ : Z.Shaped n n)
include hX hY

theorem value_combination (a b : C) :
    (X.scale a + Y.scale b).value = a • X.value + b • Y.value := by
  rw [value_add, value_scale, value_scale]
  rw [scale_size, scale_size, hX.size_eq, hY.size_eq]

theorem bracket_swap : X.bracket Y = -Y.bracket X := by
  apply value_injective (hX.bracket hY) (hY.bracket hX).neg
  rw [value_neg, bracket_value hX hY, bracket_value hY hX, fieldBracket_swap]

include hZ

theorem bracket_combination_left (a b : C) : (X.scale a + Y.scale b).bracket Z =
    (X.bracket Z).scale a + (Y.bracket Z).scale b := by
  have hsum := (hX.scale a).add (hY.scale b)
  have hXZ := hX.bracket hZ
  have hYZ := hY.bracket hZ
  apply value_injective (hsum.bracket hZ) ((hXZ.scale a).add (hYZ.scale b))
  rw [bracket_value hsum hZ, value_combination hX hY, value_combination hXZ hYZ,
    bracket_value hX hZ, bracket_value hY hZ]
  simp only [map_add, map_smul, LinearMap.add_apply, LinearMap.smul_apply]

theorem bracket_combination_right (a b : C) : Z.bracket (X.scale a + Y.scale b) =
    (Z.bracket X).scale a + (Z.bracket Y).scale b := by
  have hsum := (hX.scale a).add (hY.scale b)
  have hZX := hZ.bracket hX
  have hZY := hZ.bracket hY
  apply value_injective (hZ.bracket hsum) ((hZX.scale a).add (hZY.scale b))
  rw [bracket_value hZ hsum, value_combination hX hY, value_combination hZX hZY,
    bracket_value hZ hX, bracket_value hZ hY]
  simp only [map_add, map_smul]

theorem bracket_jacobi :
    X.bracket (Y.bracket Z) + Y.bracket (Z.bracket X) + Z.bracket (X.bracket Y) = zeros n n := by
  have hXY := hX.bracket hY
  have hYZ := hY.bracket hZ
  have hZX := hZ.bracket hX
  have hsum := (hX.bracket hYZ).add (hY.bracket hZX)
  apply value_injective (hsum.add (hZ.bracket hXY)) (.zeros n n)
  rw [value_add (hsum.size_eq.trans (hZ.bracket hXY).size_eq.symm),
    value_add ((hX.bracket hYZ).size_eq.trans (hY.bracket hZX).size_eq.symm), value_zeros,
    bracket_value hX hYZ, bracket_value hY hZX, bracket_value hZ hXY, bracket_value hX hY,
    bracket_value hY hZ, bracket_value hZ hX, fieldBracket_jacobi]

end Laws

theorem bracket_self (hX : X.Shaped n n) : X.bracket X = zeros n n := by
  apply value_injective (hX.bracket hX) (.zeros n n)
  rw [bracket_value hX hX, fieldBracket_self, value_zeros]

section Plane

/-- The field `(y², 0)`. -/
def planeShear : Tuple ℚ := ⟨2, [⟨2, [([0, 2], 1)]⟩, ⟨2, []⟩]⟩

end Plane

end Tuple

end LieNormalForm

end
