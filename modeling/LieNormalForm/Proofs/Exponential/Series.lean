import LieNormalForm.Proofs.LieSeries.Exponential
import LieNormalForm.Exponential

/-!
# The series of the exponential

The loop of the exponential keeps a term, its weight and the sum up to there. The term is the
iterated derivative of the coordinates along the field, as far as the terms above the order were
kept; they are dropped only where the derivative of what is dropped does not come back. So the sum
is the exponential series of the derivation along the field, without the terms above the order.
-/

noncomputable section

open Finset MvPolynomial LieNormalForm.LieSeries

namespace LieNormalForm

variable {C W : Type} [Weight W] [ExactField C W]

/-- The limit on the degree that a loop which drops terms, or does not, keeps them within. -/
def keptWithin (order : ℕ) (dropsTerms : Bool) : Option ℕ := if dropsTerms then some order else none

theorem cut_cut_keptWithin (order : ℕ) (dropsTerms : Bool) (a : MvPolynomial ℕ C) :
    cut (some order) (cut (keptWithin order dropsTerms) a) = cut (some order) a := by
  cases dropsTerms with
  | false => rfl
  | true => exact cut_cut _ a

/-- Terms that are dropped before a derivative do not come back, if they may be dropped. -/
theorem cut_along_keptWithin {x : Sequence C} {order : ℕ} {dropsTerms : Bool}
    (hdrops : dropsTerms = true → part 0 x = 0) (a : MvPolynomial ℕ C) :
    cut (keptWithin order dropsTerms) (along x (cut (keptWithin order dropsTerms) a)) =
      cut (keptWithin order dropsTerms) (along x a) := by
  cases dropsTerms with
  | false => rfl
  | true =>
    have hkept : ∀ b ∈ above (order + 1), (along x).toLinearMap b ∈ above (order + 1) :=
      fun _ hb => along_mem_above (hdrops rfl) hb
    exact cut_map_cut hkept a

namespace Tuple

variable {n order k : ℕ} {X : Tuple C} {t : C} {dropsTerms : Bool} {s : FlowSeries C}

/-- What the series of a field has reached with term number `k`. -/
structure FlowSeries.Reaches (n : ℕ) (x : Sequence C) (t : C) (order : ℕ) (dropsTerms : Bool)
    (k : ℕ) (s : FlowSeries C) : Prop where
  term_shaped : s.term.Shaped n n
  sum_shaped : s.sum.Shaped n n
  weight : s.weight = t ^ k / k.factorial
  term : ∀ j < n, cut (keptWithin order dropsTerms) (s.term.value j) =
    cut (keptWithin order dropsTerms) (((along x).toLinearMap ^ k) (MvPolynomial.X j))
  sum : ∀ j < n, s.sum.value j =
    cut (some order) (exponentialAlong (t • x) k (MvPolynomial.X j))

theorem FlowSeries.next_weight (s : FlowSeries C) (X : Tuple C) (t : C) (order : ℕ)
    (dropsTerms : Bool) (k : ℕ) : (s.next X t order dropsTerms k).weight = s.weight * t / k :=
  ExactField.divNat_eq _ _

theorem FlowSeries.next_term (s : FlowSeries C) (t : C) (order : ℕ) (dropsTerms : Bool) (k : ℕ)
    (hs : s.term.Shaped n n) (hX : X.Shaped n n) :
    (s.next X t order dropsTerms k).term.Shaped n n ∧
      ∀ j, (s.next X t order dropsTerms k).term.value j =
        cut (keptWithin order dropsTerms) (along X.value (s.term.value j)) := by
  have hderived := hs.directionalDerivative hX
  have hvalue := value_directionalDerivative hs hX
  cases dropsTerms with
  | false => exact ⟨hderived, fun j => congrFun hvalue j⟩
  | true =>
    refine ⟨hderived.truncate order, fun j => ?_⟩
    have hcut := value_truncate_apply (s.term.directionalDerivative X) order j
    rw [hvalue] at hcut
    exact hcut

theorem FlowSeries.next_sum (hs : s.sum.Shaped n n)
    (hterm : (s.next X t order dropsTerms k).term.Shaped n n) :
    (s.next X t order dropsTerms k).sum.Shaped n n ∧
      (s.next X t order dropsTerms k).sum.value = s.sum.value +
        (s.next X t order dropsTerms k).weight •
          ((s.next X t order dropsTerms k).term.truncate order).value := by
  have hadded := (hterm.truncate order).scale (s.next X t order dropsTerms k).weight
  refine ⟨hs.add hadded, ?_⟩
  rw [← value_scale]
  exact value_add (hs.size_eq.trans hadded.size_eq.symm)

variable [CharZero C]

theorem flow_along_smul (x : Sequence C) (t : C) (p : ℕ) (a : MvPolynomial ℕ C) :
    flow (steady (along (t • x)).toLinearMap) p a =
      (t ^ p / p.factorial) • ((along x).toLinearMap ^ p) a := by
  rw [along_smul]
  exact flow_steady_smul t a p

theorem FlowSeries.Reaches.next (hX : X.Shaped n n)
    (hdrops : dropsTerms = true → part 0 X.value = 0)
    (h : s.Reaches n X.value t order dropsTerms k) :
    (s.next X t order dropsTerms (k + 1)).Reaches n X.value t order dropsTerms (k + 1) := by
  have hquotient := s.next_weight X t order dropsTerms (k + 1)
  obtain ⟨hshaped, hvalue⟩ := s.next_term t order dropsTerms (k + 1) h.term_shaped hX
  obtain ⟨hsumShaped, hsum⟩ := FlowSeries.next_sum h.sum_shaped hshaped
  generalize s.next X t order dropsTerms (k + 1) = s' at *
  have hweight : s'.weight = t ^ (k + 1) / (k + 1).factorial := by
    rw [hquotient, h.weight, Nat.factorial_succ, Nat.cast_mul, pow_succ, div_mul_eq_mul_div, div_div,
      mul_comm ((k + 1 : ℕ) : C)]
  have hterm : ∀ j < n, cut (keptWithin order dropsTerms) (s'.term.value j) =
      cut (keptWithin order dropsTerms)
        (((along X.value).toLinearMap ^ (k + 1)) (MvPolynomial.X j)) := by
    intro j hj
    rw [hvalue, cut_cut, ← cut_along_keptWithin hdrops, h.term j hj, cut_along_keptWithin hdrops,
      pow_succ', Module.End.mul_apply]
    rfl
  refine ⟨hshaped, hsumShaped, hweight, hterm, fun j hj => ?_⟩
  have hcut : cut (some order) (s'.term.value j) =
      cut (some order) (((along X.value).toLinearMap ^ (k + 1)) (MvPolynomial.X j)) := by
    rw [← cut_cut_keptWithin order dropsTerms, hterm j hj, cut_cut_keptWithin]
  rw [hsum, Pi.add_apply, Pi.smul_apply, value_truncate_apply, h.sum j hj, hcut, hweight, ← map_smul,
    ← flow_along_smul, ← map_add, exponentialAlong_apply, exponentialAlong_apply,
    sum_range_succ _ (k + 1)]

theorem flowSeries_reaches (hX : X.Shaped n n) (hdrops : dropsTerms = true → part 0 X.value = 0)
    (t : C) (order k : ℕ) : (flowSeries X t order dropsTerms k).Reaches n X.value t order dropsTerms k := by
  induction k with
  | zero =>
    have hsize : (identity X.size : Tuple C) = identity n := by rw [hX.size_eq]
    rw [flowSeries, hsize]
    refine ⟨.identity n, (Shaped.identity n).truncate order, by simp, fun j hj => ?_,
      fun j hj => ?_⟩
    · rw [value_identity hj, pow_zero, Module.End.one_apply]
    · rw [value_truncate_apply, value_identity hj, exponentialAlong_apply, zero_add, sum_range_one,
        flow_zero_apply]
  | succ k ih => exact ih.next hX hdrops

/-- The exponential of a field always exists from order one on, and it is the exponential series
of the derivation along the field, without the terms above the order. -/
theorem exponential_value {vars : Variables} (hX : X.Shaped vars.size vars.size)
    (horder : 1 ≤ order) (t : C) :
    ∃ g, X.exponential vars t order = .ok g ∧ g.Shaped vars.size vars.size ∧
      ∀ j < vars.size, g.value j =
        cut (some order) (exponentialAlong (t • X.value) order (MvPolynomial.X j)) := by
  have hcheck : X.checkField vars .exponentialField = .ok () := by
    simp [checkField, checkFunctions, hX.size_eq, hX.nvars_eq]
  have hreaches := flowSeries_reaches hX (part_zero_eq_zero hX) t order order
  refine ⟨_, ?_, hreaches.sum_shaped, hreaches.sum⟩
  simp only [exponential, hcheck]
  rw [if_neg (by omega)]

end Tuple

end LieNormalForm

end
