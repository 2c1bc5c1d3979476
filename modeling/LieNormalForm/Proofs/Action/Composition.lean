import LieNormalForm.Proofs.Action
import LieNormalForm.Proofs.LieSeries.Composition

/-!
# Actions are compositions with a map

The forward action of a generator on the coordinates is a map that the flow carries to the
identity, the backward action is what the identity is carried to. The flow respects sums and
products, so on any other functions the actions are the compositions with these two maps, without
the terms above the order.
-/

noncomputable section

open Finset LieNormalForm.LieSeries

namespace LieNormalForm

variable {C W : Type} [Weight W] [ExactField C W]

namespace Tuple

variable {len n order : ℕ} {f g u U : Tuple C}

/-- A composition without the terms above the order is known by its parts up to the order. -/
theorem substituteWithin_eq_ok (hf : f.Shaped len n) (hu : u.Shaped n n) (hg : g.Shaped len n)
    (hsum : g.value = ∑ i ∈ range (order + 1), part i g.value)
    (hparts : ∀ k, ∀ i ≤ order,
      series (MvPolynomial.aeval u.value (f.value k)) i = part i g.value k) :
    f.substituteWithin u (some order) = .ok g := by
  obtain ⟨g', hsubstitute, hg', hvalue⟩ := substituteWithin_value hf hu id (some order)
  rw [hsubstitute]
  refine congrArg Except.ok (value_injective hg' hg (funext fun k => ?_))
  rw [hvalue, cut_some, hsum, Finset.sum_apply]
  apply sum_congr rfl
  intro i hi
  exact hparts k i (Nat.le_of_lt_succ (mem_range.1 hi))

variable [CharZero C]

theorem substituteWithin_of_carries (hf : f.Shaped len n) (hU : U.Shaped n n) (hu : u.Shaped n n)
    (hg : g.Shaped len n) (hsum : g.value = ∑ i ∈ range (order + 1), part i g.value)
    (hmap : Carries U.value order u.value (identity n : Tuple C).value)
    (hcarried : Carries U.value order g.value f.value) :
    f.substituteWithin u (some order) = .ok g := by
  apply substituteWithin_eq_ok hf hu hg hsum
  intro k
  -- a series is known by what it is carried to
  apply transport_injective (derivations U.value)
  intro i hi
  rw [hmap.aeval (fun _ hj => hU.value_eq_zero hj) (fun _ => lt_of_mem_vars_value hf) i hi,
    series_apply, ← part_apply, ← hcarried i hi, transport_negatedDerivative_apply]
  rfl

theorem substituteWithin_of_carried (hf : f.Shaped len n) (hU : U.Shaped n n) (hu : u.Shaped n n)
    (hg : g.Shaped len n) (hsum : g.value = ∑ i ∈ range (order + 1), part i g.value)
    (hmap : ∀ i ≤ order, part i u.value = transport
      (LieOperator.negatedDerivative.family U.value) (parts 0 (identity n : Tuple C).value) i)
    (hparts : ∀ i ≤ order, part i g.value = transport
      (LieOperator.negatedDerivative.family U.value) (parts 0 f.value) i) :
    f.substituteWithin u (some order) = .ok g := by
  apply substituteWithin_eq_ok hf hu hg hsum
  intro k i hi
  rw [hparts i hi, transport_negatedDerivative_apply]
  exact series_aeval_of_carried (fun _ hj => hU.value_eq_zero hj) hmap
    (fun _ => lt_of_mem_vars_value hf) i hi

end Tuple

end LieNormalForm

end
