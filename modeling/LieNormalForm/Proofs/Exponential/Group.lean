import LieNormalForm.Proofs.Action.Composition
import LieNormalForm.Proofs.Exponential.Series

/-!
# Exponentials form a group

For a field without terms below degree two the exponential at the sum of two times is, up to the
order, the exponential at the one time after the exponential at the other. At time zero it is the
identity, so the exponentials at opposite times are inverse maps.
-/

noncomputable section

open MvPolynomial (aeval)

namespace LieNormalForm

variable {C W : Type} [Weight W] [ExactField C W]

theorem cut_X {order : ℕ} (horder : 1 ≤ order) (k : ℕ) :
    cut (some order) (MvPolynomial.X k : MvPolynomial ℕ C) = MvPolynomial.X k := by
  rw [MvPolynomial.X, cut_monomial, Finsupp.degree_single, if_pos]
  simpa [Poly.within] using horder

variable [CharZero C]

/-- A map that is the exponential on the first variables makes of a polynomial in these variables
what the exponential makes of it. -/
theorem cut_aeval_of_variables {x v : Sequence C} {n d : ℕ} (hlow : ∀ i < 2, part i x = 0)
    (hx : ∀ k, n ≤ k → x k = 0)
    (hv : ∀ k < n, v k = cut (some d) (exponentialAlong x d (MvPolynomial.X k)))
    {a : MvPolynomial ℕ C} (ha : ∀ k ∈ a.vars, k < n) :
    cut (some d) (aeval v a) = cut (some d) (exponentialAlong x d a) := by
  rw [← aeval_padded ha]
  apply cut_aeval_eq_exponentialAlong hlow
  intro k
  rcases Nat.lt_or_ge k n with hk | hk
  · rw [padded_of_lt hk, hv k hk, cut_cut]
  · have hstill : along x (MvPolynomial.X k) = 0 := by rw [along_X, hx k hk]
    rw [padded_of_le hk, exponentialAlong_of_along_eq_zero hstill]

namespace Tuple

variable {X f u g : Tuple C} {vars : Variables} {n order : ℕ}

/-- The exponential at one time after the exponential at another, as tuples. -/
theorem substituteWithin_exponential (hX : X.Shaped n n) (hlow : ∀ i < 2, part i X.value = 0)
    {s t : C} (hf : f.Shaped n n) (hu : u.Shaped n n) (hg : g.Shaped n n)
    (hfs : ∀ k < n, f.value k =
      cut (some order) (exponentialAlong (s • X.value) order (MvPolynomial.X k)))
    (hut : ∀ k < n, u.value k =
      cut (some order) (exponentialAlong (t • X.value) order (MvPolynomial.X k)))
    (hgst : ∀ k < n, g.value k =
      cut (some order) (exponentialAlong ((s + t) • X.value) order (MvPolynomial.X k))) :
    f.substituteWithin u (some order) = .ok g := by
  obtain ⟨h, hsubstitute, hh, hvalue⟩ := substituteWithin_value hf hu id (some order)
  have hlowt := part_smul_eq_zero hlow t
  have hvanish : ∀ k, n ≤ k → (t • X.value) k = 0 := by
    intro k hk
    rw [Pi.smul_apply, hX.value_eq_zero hk, smul_zero]
  rw [hsubstitute]
  apply congrArg Except.ok
  apply eq_of_values hh hg
  intro k hk
  rw [hvalue, cut_aeval_of_variables hlowt hvanish hut fun _ => lt_of_mem_vars_value hf, hfs k hk,
    cut_exponentialAlong_cut hlowt, cut_exponentialAlong_add hlow, hgst k hk, add_comm]

theorem exponential_zero (hX : X.Shaped vars.size vars.size) (horder : 1 ≤ order) :
    X.exponential vars 0 order = .ok (identity vars.size) := by
  obtain ⟨g, hexponential, hg, hvalue⟩ := exponential_value hX horder 0
  rw [hexponential]
  apply congrArg Except.ok
  apply eq_of_values hg (.identity vars.size)
  intro k hk
  rw [hvalue k hk, zero_smul, exponentialAlong_of_along_eq_zero, cut_X horder, value_identity hk]
  rw [along_zero, Derivation.zero_apply]

theorem exponential_add (hX : X.Shaped vars.size vars.size)
    (hlow : ∀ i < 2, part i X.value = 0) (horder : 1 ≤ order) (s t : C) :
    ∃ f u g, X.exponential vars s order = .ok f ∧ X.exponential vars t order = .ok u ∧
      X.exponential vars (s + t) order = .ok g ∧ f.substituteWithin u (some order) = .ok g := by
  obtain ⟨f, hexponentialf, hf, hfs⟩ := exponential_value hX horder s
  obtain ⟨u, hexponentialu, hu, hut⟩ := exponential_value hX horder t
  obtain ⟨g, hexponentialg, hg, hgst⟩ := exponential_value hX horder (s + t)
  exact ⟨f, u, g, hexponentialf, hexponentialu, hexponentialg,
    substituteWithin_exponential hX hlow hf hu hg hfs hut hgst⟩

section Plane

/-- The field `(x² + y³, −xy)`. -/
def planeFlow : Tuple ℚ := ⟨2, [⟨2, [([0, 3], 1), ([2, 0], 1)]⟩, ⟨2, [([1, 1], -1)]⟩]⟩

end Plane

end Tuple

end LieNormalForm

end
