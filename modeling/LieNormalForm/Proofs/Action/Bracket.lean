import LieNormalForm.Proofs.LieAlgebra

/-!
# Adjoint actions and brackets

The adjoint actions of a generator respect the bracket: up to the order, the bracket of two
fields carried forward is the bracket of the two fields carried forward, and the same holds for
fields that are pulled back.
-/

noncomputable section

namespace LieNormalForm

variable {C W : Type} [Weight W] [ExactField C W] [CharZero C]

namespace Tuple

variable {U X Z y w : Tuple C} {n order : ℕ}

/-- A flow that carries two fields to others carries their bracket to the bracket of those. -/
theorem carriesField_bracket (hX : X.Shaped n n) (hZ : Z.Shaped n n) (hy : y.Shaped n n)
    (hw : w.Shaped n n) (hconstantX : part 0 X.value = 0) (hconstantZ : part 0 Z.value = 0)
    (hXy : CarriesField U.value order X.value y.value)
    (hZw : CarriesField U.value order Z.value w.value) :
    CarriesField U.value order (X.bracket Z).value (y.bracket w).value := by
  rw [bracket_value hX hZ, bracket_value hy hw]
  exact CarriesField.bracket hconstantX hconstantZ hXy hZw

end Tuple

end LieNormalForm

end
