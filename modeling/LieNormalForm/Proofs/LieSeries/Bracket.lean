import LieNormalForm.Proofs.LieSeries.Fields

/-!
# The bracket of fields

The derivation along a bracket is the commutator of the derivations along the two fields, and a
field is known by its derivation. So the laws of a Lie algebra come over from derivations to
fields. A flow of brackets carries the bracket of two fields to the bracket of what it carries
the fields to.
-/

noncomputable section

open Finset LieNormalForm.LieSeries

namespace LieNormalForm

variable {C W : Type} [Weight W] [ExactField C W]

theorem along_injective : Function.Injective (along : Sequence C → _) := by
  intro v w h
  funext k
  rw [← along_X v k, h, along_X]

theorem along_fieldBracket (v w : Sequence C) : along (fieldBracket v w) = ⁅along w, along v⁆ := by
  apply Derivation.ext
  intro a
  rw [Derivation.commutator_apply, along_along, fieldBracket_apply]

section Laws

variable (u v w : Sequence C)

theorem fieldBracket_self : fieldBracket v v = 0 := sub_self _

theorem fieldBracket_swap : fieldBracket v w = -fieldBracket w v := by
  rw [fieldBracket_apply, fieldBracket_apply, neg_sub]

theorem fieldBracket_leibniz : fieldBracket u (fieldBracket v w) =
    fieldBracket (fieldBracket u v) w + fieldBracket v (fieldBracket u w) := by
  apply along_injective
  apply Derivation.ext
  intro a
  simp only [along_add, along_fieldBracket, Derivation.add_apply, Derivation.commutator_apply,
    map_sub]
  abel

theorem fieldBracket_jacobi : fieldBracket u (fieldBracket v w) +
    fieldBracket v (fieldBracket w u) + fieldBracket w (fieldBracket u v) = 0 := by
  rw [fieldBracket_leibniz, fieldBracket_swap w (fieldBracket u v), fieldBracket_swap w u, map_neg]
  abel

end Laws

theorem part_zero_derive {v w : Sequence C} (hv : part 0 v = 0) : part 0 (derive v w) = 0 := by
  rw [part_derive hv, convolve, Nat.antidiagonal_zero, sum_singleton]
  funext k
  exact along_of_isHomogeneous_zero _ (mem_homogeneous.1 (parts_mem 0 w 0) k)

theorem part_zero_fieldBracket {v w : Sequence C} (hv : part 0 v = 0) (hw : part 0 w = 0) :
    part 0 (fieldBracket v w) = 0 := by
  rw [fieldBracket_apply, map_sub, part_zero_derive hw, part_zero_derive hv, sub_zero]

theorem parts_one_derive {v w : Sequence C} (hv : part 0 v = 0) (hw : part 0 w = 0) :
    parts 1 (derive v w) = convolve derive (parts 1 v) (parts 1 w) := by
  funext i
  have hlast : parts 0 w 0 = 0 := hw
  rw [parts, part_derive hv, convolve, Nat.sum_antidiagonal_succ', hlast, map_zero, zero_add]
  rfl

/-- Without constant terms the parts of a bracket are the brackets of the parts. -/
theorem parts_one_fieldBracket {v w : Sequence C} (hv : part 0 v = 0) (hw : part 0 w = 0) :
    parts 1 (fieldBracket v w) = convolve fieldBracket (parts 1 v) (parts 1 w) := by
  have hsub : parts 1 (fieldBracket v w) = parts 1 (derive w v) - parts 1 (derive v w) :=
    funext fun i => map_sub (part (i + 1)) _ _
  rw [hsub, parts_one_derive hw hv, parts_one_derive hv hw]
  funext i
  rw [Pi.sub_apply, convolve, convolve, ← Nat.sum_antidiagonal_swap, ← sum_sub_distrib]
  rfl

/-- The flow of a generator on fields carries a field to another one, up to an order. -/
def CarriesField (u : Sequence C) (order : ℕ) (x y : Sequence C) : Prop :=
  ∀ i ≤ order, transport (LieOperator.bracket.family u) (parts 0 x) i = part i y

theorem CarriesField.part_zero {u x y : Sequence C} {order : ℕ} (h : CarriesField u order x y) :
    part 0 y = part 0 x := by
  rw [← h 0 (Nat.zero_le order), transport_zero]
  rfl

variable [CharZero C]

/-- A bracket of fields is carried to the bracket of what the fields are carried to. -/
theorem CarriesField.bracket {u x y z w : Sequence C} {order : ℕ} (hx : part 0 x = 0)
    (hz : part 0 z = 0) (hxy : CarriesField u order x y) (hzw : CarriesField u order z w) :
    CarriesField u order (fieldBracket x z) (fieldBracket y w) := by
  have hy : part 0 y = 0 := hxy.part_zero.trans hx
  have hw : part 0 w = 0 := hzw.part_zero.trans hz
  intro i hi
  cases i with
  | zero =>
    rw [transport_zero, part_zero_fieldBracket hy hw]
    exact part_zero_fieldBracket hx hz
  | succ i =>
    have hshift : ∀ {v v' : Sequence C}, part 0 v = 0 → CarriesField u order v v' → ∀ j ≤ i,
        transport (LieOperator.bracket.family u) (parts 1 v) j = parts 1 v' j := by
      intro v v' hv hcarries j hj
      rw [parts, ← hcarries (j + 1) (by omega), transport_succ _ hv]
      rfl
    have hparts := parts_one_fieldBracket hx hz
    calc transport (LieOperator.bracket.family u) (parts 0 (fieldBracket x z)) (i + 1)
        = transport (LieOperator.bracket.family u) (parts 1 (fieldBracket x z)) i :=
          transport_succ _ (part_zero_fieldBracket hx hz) i
      _ = convolve fieldBracket (transport (LieOperator.bracket.family u) (parts 1 x))
            (transport (LieOperator.bracket.family u) (parts 1 z)) i := by
          rw [hparts]
          exact transport_convolve (fun j => fieldBracket_leibniz (part (j + 2) u)) _ _ i
      _ = convolve fieldBracket (parts 1 y) (parts 1 w) i :=
          convolve_congr (hshift hx hxy) (hshift hz hzw)
      _ = part (i + 1) (fieldBracket y w) := by
          rw [← parts_one_fieldBracket hy hw]
          rfl

end LieNormalForm

end
