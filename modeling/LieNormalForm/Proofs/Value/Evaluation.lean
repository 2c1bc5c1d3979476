import LieNormalForm.Proofs.Value.Substitute

/-!
# Values at points

Over a field the powers that repeated squaring computes are the powers of the field, and a
polynomial evaluated term by term has the value of the polynomial that it stands for. A point
without a coordinate counts as one there, for such coordinates are left out of every product.
-/

noncomputable section

namespace LieNormalForm

variable {C W : Type} [Weight W] [ExactField C W]

namespace Coefficient

theorem squareWhileEven_spec {budget e : ℕ} (x : C) (he : 0 < e) (hbudget : e ≤ budget) :
    (squareWhileEven budget x e).2 % 2 = 1 ∧
      (squareWhileEven budget x e).1 ^ (squareWhileEven budget x e).2 = x ^ e := by
  induction budget generalizing x e with
  | zero => omega
  | succ budget ih =>
    rw [squareWhileEven]
    split
    · rename_i heven
      obtain ⟨hodd, hpow⟩ := ih (x * x) (e := e / 2) (by omega) (by omega)
      refine ⟨hodd, hpow.trans ?_⟩
      rw [← pow_two, ← pow_mul, Nat.mul_div_cancel' (Nat.dvd_of_mod_eq_zero heven)]
    · exact ⟨Nat.mod_two_ne_zero.1 ‹_›, rfl⟩

theorem multiplyOddSquares_eq {budget e : ℕ} (x acc : C) (hbudget : e ≤ budget) :
    multiplyOddSquares budget x acc e = acc * x ^ (2 * (e / 2)) := by
  induction budget generalizing x acc e with
  | zero =>
    obtain rfl := Nat.le_zero.1 hbudget
    rw [multiplyOddSquares, Nat.zero_div, Nat.mul_zero, pow_zero, mul_one]
  | succ budget ih =>
    rw [multiplyOddSquares]
    -- the lowest digit of the exponent is in `acc` already, the next one decides about `x * x`
    split
    · rename_i hsmall
      rw [Nat.div_eq_of_lt (by omega), Nat.mul_zero, pow_zero, mul_one]
    · have hdigit : (if e / 2 % 2 = 1 then acc * (x * x) else acc) =
          acc * (x * x) ^ (e / 2 % 2) := by
        rcases Nat.mod_two_eq_zero_or_one (e / 2) with hmod | hmod
        · rw [hmod, if_neg (by decide), pow_zero, mul_one]
        · rw [hmod, if_pos rfl, pow_one]
      dsimp only
      rw [ih _ _ (by omega), hdigit, mul_assoc, ← pow_add, Nat.mod_add_div, ← pow_two, ← pow_mul]

theorem power_eq_pow (x : C) (e : ℕ) : power x e = x ^ e := by
  unfold power
  split
  · rename_i hzero
    rw [hzero, pow_zero]
  · rename_i hpos
    obtain ⟨hodd, hpow⟩ := squareWhileEven_spec x (Nat.pos_of_ne_zero hpos) le_rfl
    generalize squareWhileEven e x e = square at hodd hpow
    obtain ⟨y, odd⟩ := square
    dsimp only at hodd hpow ⊢
    rw [← hpow]
    split
    · rename_i hone
      rw [hone, pow_one]
    · rw [multiplyOddSquares_eq y y le_rfl, ← pow_succ']
      congr 1
      omega

theorem sum_eq (xs : List C) : sum xs = xs.sum := List.sum_eq_foldl.symm

end Coefficient

/-- The coordinates of a point, one beyond the last. -/
def pointAt (a : List C) (k : ℕ) : C := a.getD k 1

namespace Poly

theorem foldl_power (m : Monomial) (a : List C) (c : C) :
    (List.zip m a).foldl (fun acc ex => acc * Coefficient.power ex.2 ex.1) c =
      c * ∏ k ∈ Finset.range m.length, pointAt a k ^ m.exponent k := by
  induction m generalizing a c with
  | nil => simp
  | cons e m ih =>
    rw [List.length_cons, Finset.prod_range_succ']
    cases a with
    | nil => simp [pointAt]
    | cons x a =>
      rw [List.zip_cons_cons, List.foldl_cons, ih, Coefficient.power_eq_pow, mul_assoc]
      congr 1
      rw [mul_comm]
      rfl

theorem eval_termValue (t : Term C) (x : ℕ → C) :
    MvPolynomial.eval x (termValue t) =
      t.2 * ∏ k ∈ Finset.range t.1.length, x k ^ t.1.exponent k := by
  rw [termValue, MvPolynomial.eval_monomial]
  congr 1
  exact Finsupp.prod_of_support_subset _ (List.toFinsupp_support_subset _) _
    fun _ _ => pow_zero _

theorem evaluate_eq_eval (p : Poly C) (a : List C) :
    p.evaluate a = MvPolynomial.eval (pointAt a) p.value := by
  rw [evaluate, Coefficient.sum_eq, value, termsValue, map_list_sum, List.map_map]
  congr 1
  refine List.map_congr_left fun t _ => ?_
  rw [foldl_power, Function.comp_apply, eval_termValue]

variable {n : ℕ} {p q : Poly C}

theorem evaluate_constant (n : ℕ) (c : C) (a : List C) : (constant n c).evaluate a = c := by
  rw [evaluate_eq_eval, value_constant, MvPolynomial.eval_C]

theorem evaluate_coordinate {k : ℕ} (hk : k < n) (a : List C) :
    (coordinate n k).evaluate a = pointAt a k := by
  rw [evaluate_eq_eval, value_coordinate hk, MvPolynomial.eval_X]

theorem evaluate_add (p q : Poly C) (a : List C) :
    (p + q).evaluate a = p.evaluate a + q.evaluate a := by
  simp only [evaluate_eq_eval, value_add, map_add]

theorem evaluate_sub (p q : Poly C) (a : List C) :
    (p - q).evaluate a = p.evaluate a - q.evaluate a := by
  simp only [evaluate_eq_eval, value_sub, map_sub]

theorem evaluate_neg (p : Poly C) (a : List C) : (-p).evaluate a = -p.evaluate a := by
  simp only [evaluate_eq_eval, value_neg, map_neg]

theorem evaluate_scale (p : Poly C) (c : C) (a : List C) :
    (p.scale c).evaluate a = c * p.evaluate a := by
  simp only [evaluate_eq_eval, value_scale, MvPolynomial.smul_eval]

theorem evaluate_mul (hp : p.Canonical n) (hq : q.Canonical n) (a : List C) :
    (p * q).evaluate a = p.evaluate a * q.evaluate a := by
  simp only [evaluate_eq_eval, value_mul hp hq, map_mul]

theorem evaluate_pow (hp : p.Canonical n) (e : ℕ) (a : List C) :
    (p.pow e).evaluate a = p.evaluate a ^ e := by
  simp only [evaluate_eq_eval, value_pow hp, map_pow]

end Poly

end LieNormalForm

end
