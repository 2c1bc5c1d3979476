import LieNormalForm.Proofs.LieSeries.Composition
import LieNormalForm.Proofs.NormalForm

/-!
# The flow of the generator conjugates a field to its normal form

The forward action on the coordinates is the time-one map of the generator. Both sides of the
conjugation, the derivative of this map along the field and the normal form after this map,
are carried to the normal form itself; so they agree up to the order.
-/

noncomputable section

open Finset LieNormalForm.LieSeries

namespace LieNormalForm

variable {C W : Type} [Weight W] [ExactField C W] [CharZero C]

section Sides

variable {n order : ℕ} {X : Tuple C} {N : NormalForm C} {φ : Sequence C}

/-- The derivative of the map along the field is carried to the normal form. -/
theorem transport_derive (hN : N.CarriedFrom n order X) (hconstant : part 0 X.value = 0)
    (hφ : Carries N.generator.value order φ (Tuple.identity n : Tuple C).value) :
    Carries N.generator.value order (derive X.value φ) N.field.value := by
  have hcarries := Carries.derive hconstant (fun i hi => hN.part_field hconstant hi) hφ
  rwa [derive_identity n fun k hk => hN.field.value_eq_zero hk] at hcarries

/-- The normal form after the map is carried to the normal form. -/
theorem transport_composition (hN : N.CarriedFrom n order X)
    (hφ : Carries N.generator.value order φ (Tuple.identity n : Tuple C).value) (k : ℕ) :
    ∀ i ≤ order, transport (derivations N.generator.value)
      (series (MvPolynomial.aeval φ (N.field.value k))) i = series (N.field.value k) i :=
  Carries.aeval (fun _ hj => hN.generator.value_eq_zero hj) hφ
    fun _ => Tuple.lt_of_mem_vars_value hN.field

end Sides

namespace Tuple

variable {X : Tuple C} {vars : Variables} {order : ℕ} {strategy : FormStrategy}
  {test : ZeroTest C} {N : NormalForm C}

section Resonant

/-- The field `(x + y², 2y + xy + x²)`, with the resonant term `x²` in its normal form. -/
def resonantField : Tuple ℚ :=
  ⟨2, [⟨2, [([0, 2], 1), ([1, 0], 1)]⟩, ⟨2, [([0, 1], 2), ([1, 1], 1), ([2, 0], 1)]⟩]⟩

end Resonant

end Tuple

end LieNormalForm

end
