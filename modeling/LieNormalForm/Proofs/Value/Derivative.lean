import LieNormalForm.Proofs.Value.Composition

/-!
# Exact derivatives

Over a field a derivative has the coefficients that the partial derivative of a polynomial has. So
it is linear, it obeys the product rule, the order of two derivatives does not matter, and the chain
rule holds for substitutions. For tuples the chain rule says that the derivative of a composition
along a field is the Jacobian taken at the inner map, applied to the derivative of the inner map.
-/

open MvPolynomial (aeval pderiv)

noncomputable section

namespace LieNormalForm

variable {C W : Type} [Weight W] [ExactField C W]

section Derivations

variable (D : Derivation C (MvPolynomial ℕ C) (MvPolynomial ℕ C)) {x : Sequence C} {m : ℕ}

/-- Of the terms of the chain rule for a variable only its own is there. -/
theorem sum_pderiv_X (hx : ∀ k, m ≤ k → x k = 0) (i : ℕ) :
    ∑ k ∈ Finset.range m, aeval x (pderiv k (MvPolynomial.X i : MvPolynomial ℕ C)) * D (x k) =
      D (x i) := by
  have hother : ∀ k, k ≠ i →
      aeval x (pderiv k (MvPolynomial.X i : MvPolynomial ℕ C)) * D (x k) = 0 := by
    intro k hk
    rw [MvPolynomial.pderiv_X_of_ne hk.symm, map_zero, zero_mul]
  by_cases hi : i < m
  · rw [Finset.sum_eq_single_of_mem i (Finset.mem_range.2 hi) fun k _ => hother k]
    simp
  · rw [hx i (not_lt.1 hi), map_zero]
    apply Finset.sum_eq_zero
    intro k hk
    apply hother
    rintro rfl
    exact hi (Finset.mem_range.1 hk)

/-- A derivation goes inside by way of the partial derivatives. -/
theorem derivation_aeval (hx : ∀ k, m ≤ k → x k = 0) (a : MvPolynomial ℕ C) :
    D (aeval x a) = ∑ k ∈ Finset.range m, aeval x (pderiv k a) * D (x k) := by
  induction a using MvPolynomial.induction_on with
  | C c => simp [MvPolynomial.algebraMap_eq]
  | add a b ha hb => simp only [map_add, ha, hb, add_mul, Finset.sum_add_distrib]
  | mul_X a i ha =>
    calc D (aeval x (a * MvPolynomial.X i))
        = aeval x a * D (x i) + x i * D (aeval x a) := by simp
      _ = ∑ k ∈ Finset.range m, (aeval x a * (aeval x (pderiv k (MvPolynomial.X i)) * D (x k)) +
            x i * (aeval x (pderiv k a) * D (x k))) := by
          rw [Finset.sum_add_distrib, ← Finset.mul_sum, ← Finset.mul_sum, sum_pderiv_X D hx, ha]
      _ = ∑ k ∈ Finset.range m, aeval x (pderiv k (a * MvPolynomial.X i)) * D (x k) := by
          apply Finset.sum_congr rfl
          intro k _
          rw [MvPolynomial.pderiv_mul, map_add, map_mul, map_mul, MvPolynomial.aeval_X]
          ring

end Derivations

/-- The bracket of two partial derivatives is a derivation that takes every variable to zero. -/
theorem pderiv_comm (i j : ℕ) (a : MvPolynomial ℕ C) :
    pderiv i (pderiv j a) = pderiv j (pderiv i a) := by
  have hbracket : ⁅pderiv (R := C) i, pderiv (R := C) j⁆ = 0 := by
    refine MvPolynomial.derivation_ext fun k => ?_
    simp [Derivation.commutator_apply, MvPolynomial.pderiv_X, Pi.single_apply, apply_ite]
  have happly := DFunLike.congr_fun hbracket a
  rw [Derivation.commutator_apply] at happly
  exact sub_eq_zero.1 happly

namespace Poly

/-- The sum of a list of polynomials in `n` variables. -/
def sum (n : ℕ) (ps : List (Poly C)) : Poly C := ps.foldl (· + ·) (zero n)

section Laws

variable {n : ℕ} {p q : Poly C}

theorem value_sum (n : ℕ) (ps : List (Poly C)) : (sum n ps).value = (ps.map value).sum := by
  have hfold : ∀ (ps : List (Poly C)) (out : Poly C),
      (ps.foldl (· + ·) out).value = out.value + (ps.map value).sum := by
    intro ps
    induction ps with
    | nil => simp
    | cons p ps ih =>
      intro out
      rw [List.foldl_cons, ih, value_add, List.map_cons, List.sum_cons, add_assoc]
  rw [sum, hfold, value_zero, zero_add]

theorem Canonical.sum {ps : List (Poly C)} (h : ∀ p ∈ ps, p.Canonical n) :
    (Poly.sum n ps).Canonical n := by
  have hfold : ∀ (ps : List (Poly C)) (out : Poly C), (∀ p ∈ ps, p.Canonical n) →
      out.Canonical n → (ps.foldl (· + ·) out).Canonical n := by
    intro ps
    induction ps with
    | nil => exact fun _ _ hout => hout
    | cons p ps ih =>
      intro out h hout
      obtain ⟨hp, hps⟩ := List.forall_mem_cons.1 h
      exact ih _ hps (hout.add hp)
  exact hfold ps _ h (.zero n)

/-- The laws of the derivative by variable `i`, for two polynomials in `n` variables. -/
structure Differentiates (n : ℕ) (p q : Poly C) (c : C) (i j : ℕ) : Prop where
  coefficient : ∀ m : Monomial, m.length = n → i < n →
    (p.derivative i).coefficient m =
      (m.exponent i + 1) * p.coefficient (m.product (Monomial.coordinate n i))
  add : (p + q).derivative i = p.derivative i + q.derivative i
  scale : (p.scale c).derivative i = (p.derivative i).scale c
  mul : (p * q).derivative i = p.derivative i * q + p * q.derivative i
  comm : (p.derivative i).derivative j = (p.derivative j).derivative i

theorem coefficient_derivative (hp : p.Canonical n) {i : ℕ} (hi : i < n) {m : Monomial}
    (hm : m.length = n) :
    (p.derivative i).coefficient m =
      (m.exponent i + 1) * p.coefficient (m.product (Monomial.coordinate n i)) := by
  have hlength : m.length = (Monomial.coordinate n i).length :=
    hm.trans (Monomial.coordinate_length n i).symm
  have hraised := coeff_value hp ((Monomial.product_length hlength).trans hm)
  rw [Monomial.exponents_product hlength, Monomial.exponents_coordinate hi] at hraised
  rw [← coeff_value (hp.derivative i) hm, value_derivative, MvPolynomial.coeff_pderiv, hraised,
    Monomial.exponents_apply, mul_comm]

theorem Canonical.differentiates (hp : p.Canonical n) (hq : q.Canonical n) (c : C) (i j : ℕ) :
    Differentiates n p q c i j := by
  constructor
  case coefficient => exact fun m hm hi => coefficient_derivative hp hi hm
  case add =>
    apply value_injective ((hp.add hq).derivative i) ((hp.derivative i).add (hq.derivative i))
    simp [value_derivative, value_add]
  case scale =>
    apply value_injective ((hp.scale c).derivative i) ((hp.derivative i).scale c)
    simp [value_derivative, value_scale]
  case mul =>
    have hleft := (hp.derivative i).mul hq
    have hright := hp.mul (hq.derivative i)
    apply value_injective ((hp.mul hq).derivative i) (hleft.add hright)
    rw [value_derivative, value_mul hp hq, MvPolynomial.pderiv_mul, value_add,
      value_mul (hp.derivative i) hq, value_mul hp (hq.derivative i), value_derivative,
      value_derivative]
  case comm =>
    apply value_injective ((hp.derivative i).derivative j) ((hp.derivative j).derivative i)
    simp only [value_derivative, pderiv_comm]

end Laws

end Poly

namespace Tuple

variable {g : Tuple C} {p : Poly C}

/-- The composition with `g`, where `g` fits. -/
def composed (g : Tuple C) (p : Poly C) : Poly C :=
  (p.substitute g.components).toOption.getD (.zero g.nvars)

theorem composes_composed (hg : g.WellFormed) (hsize : g.size ≠ 0) (hp : p.Canonical g.size) :
    g.Composes p (g.composed p) := by
  obtain ⟨p', hp'⟩ := exists_composes hg hsize hp
  have heq : g.composed p = p' := by simp [composed, hp'.substitute_eq, Except.toOption]
  exact heq ▸ hp'

theorem chain_rule (hg : g.WellFormed) (hsize : g.size ≠ 0) (hp : p.Canonical g.size) (j : ℕ) :
    (g.composed p).derivative j = Poly.sum g.nvars ((List.range g.size).map fun k =>
      g.composed (p.derivative k) * (g.component k).derivative j) := by
  have hcomposed := composes_composed hg hsize hp
  have houter (k : ℕ) := composes_composed hg hsize (hp.derivative k)
  have hinner (k : ℕ) := (hg.component k).derivative j
  apply Poly.value_injective (hcomposed.canonical.derivative j)
  · refine .sum fun q hq => ?_
    obtain ⟨k, _, rfl⟩ := List.mem_map.1 hq
    exact (houter k).canonical.mul (hinner k)
  · have hterm (k : ℕ) : (g.composed (p.derivative k) * (g.component k).derivative j).value =
        aeval g.value (pderiv k p.value) * pderiv j (g.value k) := by
      rw [Poly.value_mul (houter k).canonical (hinner k), (houter k).value_eq,
        Poly.value_derivative, Poly.value_derivative, value_eq]
    rw [Poly.value_derivative, hcomposed.value_eq,
      derivation_aeval (pderiv j) fun k hk => value_of_size_le hk, Poly.value_sum, List.map_map]
    simp only [Function.comp_def, hterm]
    rfl

end Tuple

namespace Jacobian

/-- Every entry composed with `g`. -/
def substitute (J : Jacobian C) (g : Tuple C) : Except Error (Jacobian C) :=
  match J.rows.mapM fun row => row.mapM fun p => p.substitute g.components with
  | .error e => .error e
  | .ok rows => .ok ⟨J.nvars, rows⟩

/-- The entries are canonical polynomials in `n` variables. -/
def Canonical (n : ℕ) (J : Jacobian C) : Prop := ∀ row ∈ J.rows, ∀ p ∈ row, p.Canonical n

/-- The composition of every entry with `g`, where `g` fits. -/
def composed (J : Jacobian C) (g : Tuple C) : Jacobian C :=
  ⟨J.nvars, J.rows.map fun row => row.map g.composed⟩

variable {len m n : ℕ} {J : Jacobian C} {F g v w : Tuple C} {p : Poly C}

theorem composed_nrows (J : Jacobian C) (g : Tuple C) : (J.composed g).nrows = J.nrows := by
  simp [composed, nrows]

theorem ofTuple_canonical (hF : F.Shaped len n) : (ofTuple F).Canonical n := by
  intro row hrow q hq
  obtain ⟨p, hp, rfl⟩ := List.mem_map.1 hrow
  obtain ⟨j, _, rfl⟩ := List.mem_map.1 hq
  exact (hF.canonical p hp).derivative j

theorem substitute_eq (hg : g.WellFormed) (hsize : g.size ≠ 0) (hJ : J.Canonical g.size) :
    J.substitute g = .ok (J.composed g) := by
  have hrow : ∀ row ∈ J.rows,
      row.mapM (fun p => p.substitute g.components) = pure (row.map g.composed) := by
    intro row hrow
    apply mapM_eq_pure
    exact fun p hp => (Tuple.composes_composed hg hsize (hJ row hrow p hp)).substitute_eq
  rw [substitute, mapM_eq_pure hrow]
  rfl

theorem Canonical.composed (hg : g.WellFormed) (hsize : g.size ≠ 0) (hJ : J.Canonical g.size) :
    (J.composed g).Canonical g.nvars := by
  intro row hrow q hq
  obtain ⟨row, hmem, rfl⟩ := List.mem_map.1 hrow
  obtain ⟨p, hp, rfl⟩ := List.mem_map.1 hq
  exact (Tuple.composes_composed hg hsize (hJ row hmem p hp)).canonical

theorem Canonical.contract (hJ : J.Canonical n) (hv : v.Shaped m n) :
    (J.contract v).Shaped J.nrows n := by
  refine ⟨J.contract_size v, hv.nvars_eq, fun p hp => ?_⟩
  obtain ⟨row, hrow, rfl⟩ := List.mem_map.1 hp
  exact hv.contractRow (hJ row hrow)

/-- A row of a Jacobian at `g`, applied to the derivative of `g` along a field. -/
theorem value_contractRow_composed (hg : g.WellFormed) (hsize : g.size ≠ 0)
    (hp : p.Canonical g.size) (hw : w.Shaped g.nvars g.nvars) :
    (contractRow (g.directionalDerivative w) ((gradient g.size p).map g.composed)).value =
      along w.value (aeval g.value p.value) := by
  have houter (j : ℕ) := Tuple.composes_composed hg hsize (hp.derivative j)
  simp only [gradient, List.map_map, Function.comp_def]
  rw [Tuple.value_contractRow_range (fun j => (houter j).canonical) (hg.directionalDerivative hw),
    derivation_aeval (along w.value) fun k hk => Tuple.value_of_size_le hk]
  refine Finset.sum_congr rfl fun j _ => ?_
  rw [Tuple.value_directionalDerivative hg hw, derive_apply, (houter j).value_eq,
    Poly.value_derivative]

theorem value_contract_composed (hg : g.WellFormed) (hsize : g.size ≠ 0)
    (hF : F.Shaped len g.size) (hw : w.Shaped g.nvars g.nvars) (k : ℕ) :
    (((ofTuple F).composed g).contract (g.directionalDerivative w)).value k =
      along w.value (aeval g.value (F.value k)) := by
  refine Tuple.imageValues_of_forall₂ (φ := fun a => along w.value (aeval g.value a)) (by simp) ?_ k
  simp only [contract, composed, ofTuple, List.map_map, List.forall₂_map_right_iff,
    List.forall₂_same, hF.nvars_eq]
  exact fun p hp => value_contractRow_composed hg hsize (hF.canonical p hp) hw

end Jacobian

namespace Tuple

variable {len : ℕ} {F g w : Tuple C}

theorem directionalDerivative_substitute (hg : g.WellFormed) (hsize : g.size ≠ 0)
    (hF : F.Shaped len g.size) (hw : w.Shaped g.nvars g.nvars) :
    ∃ F' J, F.substitute g = .ok F' ∧ (Jacobian.ofTuple F).substitute g = .ok J ∧
      F'.directionalDerivative w = J.contract (g.directionalDerivative w) := by
  have hJ := Jacobian.ofTuple_canonical hF
  obtain ⟨F', hF', hshape, hvalue⟩ :=
    substituteWithin_value hF hg (fun hzero => absurd hzero hsize) none
  refine ⟨F', _, hF', Jacobian.substitute_eq hg hsize hJ, ?_⟩
  have hcontract := (hJ.composed hg hsize).contract (hg.directionalDerivative hw)
  rw [Jacobian.composed_nrows, Jacobian.ofTuple_nrows, hF.size_eq] at hcontract
  apply value_injective (hshape.directionalDerivative hw) hcontract
  funext k
  rw [value_directionalDerivative hshape hw, derive_apply, hvalue,
    Jacobian.value_contract_composed hg hsize hF hw]
  rfl

end Tuple

end LieNormalForm

end
