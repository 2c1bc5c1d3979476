import LieNormalForm.Proofs.Value.Substitute
import LieNormalForm.Proofs.Canonical.Tuple

/-!
# The tuple of polynomials that a tuple stands for

The value of a tuple is a sequence of polynomials, zero beyond the last component. A sequence
acts on polynomials as a derivation, the one that takes each variable to its member of the
sequence; directional derivatives and brackets of tuples are those of their values.
-/

noncomputable section

namespace LieNormalForm

variable {C W : Type} [Weight W] [ExactField C W]

/-- A sequence of polynomials, one for each variable or function. -/
abbrev Sequence (C : Type) [Field C] := ℕ → MvPolynomial ℕ C

/-- The derivation along a field. -/
def along (w : Sequence C) : Derivation C (MvPolynomial ℕ C) (MvPolynomial ℕ C) :=
  MvPolynomial.mkDerivation C w

theorem along_X (w : Sequence C) (k : ℕ) : along w (MvPolynomial.X k) = w k :=
  MvPolynomial.mkDerivation_X C w k

theorem along_add (v w : Sequence C) : along (v + w) = along v + along w := by
  refine MvPolynomial.derivation_ext fun k => ?_
  rw [Derivation.add_apply, along_X, along_X, along_X]
  rfl

theorem along_smul (c : C) (w : Sequence C) : along (c • w) = c • along w := by
  refine MvPolynomial.derivation_ext fun k => ?_
  rw [Derivation.smul_apply, along_X, along_X]
  rfl

theorem along_zero : along (0 : Sequence C) = 0 := by
  rw [← zero_smul C (0 : Sequence C), along_smul, zero_smul]

theorem along_eq_sum {a : MvPolynomial ℕ C} {n : ℕ} (h : ∀ k ∈ a.vars, k < n) (w : Sequence C) :
    along w a = ∑ j ∈ Finset.range n, MvPolynomial.pderiv j a * w j := by
  let D : Derivation C (MvPolynomial ℕ C) (MvPolynomial ℕ C) :=
    ∑ j ∈ Finset.range n, w j • MvPolynomial.pderiv j
  have hD (b : MvPolynomial ℕ C) :
      D b = ∑ j ∈ Finset.range n, MvPolynomial.pderiv j b * w j := by
    have hsum := map_sum (Derivation.coeFnAddMonoidHom (R := C) (A := MvPolynomial ℕ C)
      (M := MvPolynomial ℕ C)) (fun j => w j • MvPolynomial.pderiv j) (Finset.range n)
    exact (congrFun hsum b).trans ((Finset.sum_apply _ _ _).trans
      (Finset.sum_congr rfl fun j _ => mul_comm _ _))
  rw [← hD]
  refine MvPolynomial.derivation_eq_of_forall_mem_vars fun k hk => ?_
  rw [along_X, hD, Finset.sum_eq_single k]
  · rw [MvPolynomial.pderiv_X_self, one_mul]
  · intro j _ hjk
    rw [MvPolynomial.pderiv_X_of_ne hjk.symm, zero_mul]
  · exact fun hnot => absurd (Finset.mem_range.2 (h k hk)) hnot

/-- The derivatives of all members of a sequence along a field, linear in both. -/
def derive : Sequence C →ₗ[C] Sequence C →ₗ[C] Sequence C :=
  LinearMap.mk₂ C (fun w f k => along w (f k))
    (fun v w f => by funext k; simp [along_add])
    (fun c w f => by funext k; simp [along_smul])
    (fun w f g => by funext k; simp)
    (fun c w f => by funext k; simp)

theorem derive_apply (w f : Sequence C) (k : ℕ) : derive w f k = along w (f k) := rfl

/-- The operator of a term of a generator. -/
def LieOperator.act : LieOperator → Sequence C → Module.End C (Sequence C)
  | bracket, w => derive.flip w - derive w
  | negatedDerivative, w => -derive w

theorem LieOperator.act_bracket (w g : Sequence C) :
    bracket.act w g = derive g w - derive w g := rfl

theorem LieOperator.act_negatedDerivative (w g : Sequence C) :
    negatedDerivative.act w g = -derive w g := rfl

theorem LieOperator.act_smul (op : LieOperator) (c : C) (w : Sequence C) :
    op.act (c • w) = c • op.act w := by
  cases op with
  | bracket => exact map_smul (derive.flip - derive) c w
  | negatedDerivative => exact map_smul (-derive) c w

theorem LieOperator.act_zero (op : LieOperator) : op.act (0 : Sequence C) = 0 := by
  rw [← zero_smul C (0 : Sequence C), act_smul, zero_smul]

/-- The bracket of two fields, linear in both. -/
def fieldBracket : Sequence C →ₗ[C] Sequence C →ₗ[C] Sequence C := derive.flip - derive

theorem fieldBracket_apply (v w : Sequence C) : fieldBracket v w = derive w v - derive v w := rfl

/-- The part of a degree in every member. -/
def part (d : ℕ) : Sequence C →ₗ[C] Sequence C :=
  LinearMap.pi fun k => MvPolynomial.homogeneousComponent d ∘ₗ LinearMap.proj k

theorem part_apply (d : ℕ) (f : Sequence C) (k : ℕ) :
    part d f k = MvPolynomial.homogeneousComponent d (f k) := rfl

namespace Tuple

/-- The values of the components, zero beyond the last. -/
def value (f : Tuple C) : Sequence C := Poly.imageValues f.components

theorem value_eq (f : Tuple C) (k : ℕ) : f.value k = (f.component k).value := by
  rw [value, Poly.imageValues, component, List.getD_eq_getElem?_getD, List.getD_eq_getElem?_getD,
    List.getElem?_map]
  cases f.components[k]? <;> rfl

theorem value_of_size_le {f : Tuple C} {k : ℕ} (h : f.size ≤ k) : f.value k = 0 :=
  List.getD_eq_default _ _ (by simpa [size] using h)

theorem Shaped.value_eq_zero {len n : ℕ} {f : Tuple C} (h : f.Shaped len n) {k : ℕ}
    (hk : len ≤ k) : f.value k = 0 := value_of_size_le (h.size_eq.trans_le hk)

theorem value_injective {len n : ℕ} {f g : Tuple C} (hf : f.Shaped len n) (hg : g.Shaped len n)
    (h : f.value = g.value) : f = g := by
  have hnvars := hf.nvars_eq.trans hg.nvars_eq.symm
  have hcomponents : f.components = g.components := by
    refine List.ext_getElem (hf.size_eq.trans hg.size_eq.symm) fun k hk hk' => ?_
    have hp := hf.canonical _ (List.getElem_mem hk)
    have hq := hg.canonical _ (List.getElem_mem hk')
    refine Poly.value_injective hp hq ?_
    have hvalue := congrFun h k
    rw [value_eq, value_eq, component, component, List.getD_eq_getElem _ _ hk,
      List.getD_eq_getElem _ _ hk'] at hvalue
    exact hvalue
  exact congrArg₂ Tuple.mk hnvars hcomponents

theorem eq_of_values {len n : ℕ} {f g : Tuple C} (hf : f.Shaped len n) (hg : g.Shaped len n)
    (h : ∀ k < len, f.value k = g.value k) : f = g := by
  apply value_injective hf hg
  funext k
  rcases Nat.lt_or_ge k len with hk | hk
  · exact h k hk
  · rw [hf.value_eq_zero hk, hg.value_eq_zero hk]

theorem value_map {f : Tuple C} {op : Poly C → Poly C}
    {φ : MvPolynomial ℕ C →ₗ[C] MvPolynomial ℕ C} (h : ∀ p : Poly C, (op p).value = φ p.value)
    (k : ℕ) : (f.map op).value k = φ (f.value k) := by
  rw [value, value, Poly.imageValues, Poly.imageValues, map, List.map_map,
    List.getD_eq_getElem?_getD, List.getD_eq_getElem?_getD, List.getElem?_map, List.getElem?_map]
  cases f.components[k]? with
  | none => exact (map_zero φ).symm
  | some p => exact h p

theorem value_zeros (len n : ℕ) : (zeros len n : Tuple C).value = 0 := by
  funext k
  rw [value_eq, component, zeros, List.getD_eq_getElem?_getD, List.getElem?_replicate]
  split <;> rfl

theorem value_identity {n k : ℕ} (hk : k < n) :
    (identity n : Tuple C).value k = MvPolynomial.X k := by
  rw [value_eq, component, identity, List.getD_eq_getElem?_getD, List.getElem?_map,
    List.getElem?_range hk]
  exact Poly.value_coordinate hk

theorem value_scale (f : Tuple C) (c : C) : (f.scale c).value = c • f.value := by
  funext k
  exact value_map (φ := c • LinearMap.id) (fun p => Poly.value_scale p c) k

theorem value_neg (f : Tuple C) : (-f).value = -f.value := by
  funext k
  exact value_map (φ := -LinearMap.id) (fun p => Poly.value_neg p) k

theorem value_homogeneousPart (f : Tuple C) (d : ℕ) : (f.homogeneousPart d).value = part d f.value := by
  funext k
  exact value_map (fun p => Poly.value_homogeneousPart p d) k

theorem value_truncate_apply (f : Tuple C) (d k : ℕ) :
    (f.truncate d).value k = cut (some d) (f.value k) :=
  value_map (fun p => Poly.value_truncate p d) k

theorem value_truncate (f : Tuple C) (d : ℕ) :
    (f.truncate d).value = ∑ i ∈ Finset.range (d + 1), part i f.value := by
  funext k
  rw [value_truncate_apply, cut_some, Finset.sum_apply]
  rfl

theorem imageValues_zipComponents {op : Poly C → Poly C → Poly C}
    {φ : MvPolynomial ℕ C → MvPolynomial ℕ C → MvPolynomial ℕ C} (hzero : φ 0 0 = 0)
    (h : ∀ p q : Poly C, (op p q).value = φ p.value q.value) {ps qs : List (Poly C)}
    (hlen : ps.length = qs.length) (k : ℕ) :
    Poly.imageValues (zipComponents op ps qs) k =
      φ (Poly.imageValues ps k) (Poly.imageValues qs k) := by
  induction ps generalizing qs k with
  | nil =>
    rw [List.length_eq_zero_iff.1 hlen.symm]
    exact hzero.symm
  | cons p ps ih =>
    obtain ⟨q, qs, rfl⟩ := List.exists_cons_of_length_eq_add_one hlen.symm
    cases k with
    | zero => exact h p q
    | succ k => exact ih (Nat.succ.inj hlen) k

theorem value_add {f g : Tuple C} (h : f.size = g.size) : (f + g).value = f.value + g.value := by
  funext k
  exact imageValues_zipComponents (add_zero 0) Poly.value_add h k

theorem value_sub {f g : Tuple C} (h : f.size = g.size) : (f - g).value = f.value - g.value := by
  funext k
  exact imageValues_zipComponents (sub_zero 0) Poly.value_sub h k

theorem sumOnto_value {len n : ℕ} {f : Tuple C} {gs : List (Tuple C)} (hf : f.Shaped len n)
    (hgs : ∀ g ∈ gs, g.Shaped len n) :
    (f.sumOnto gs).Shaped len n ∧ (f.sumOnto gs).value = f.value + (gs.map value).sum := by
  induction gs generalizing f with
  | nil => exact ⟨hf, (add_zero _).symm⟩
  | cons g gs ih =>
    obtain ⟨hg, hgs⟩ := List.forall_mem_cons.1 hgs
    obtain ⟨hshape, hvalue⟩ := ih (hf.add hg) hgs
    refine ⟨hshape, hvalue.trans ?_⟩
    rw [value_add (hf.size_eq.trans hg.size_eq.symm), List.map_cons, List.sum_cons, add_assoc]

theorem coeff_value_of_mem {len n : ℕ} {f : Tuple C} (hf : f.Shaped len n) {k : ℕ} {t : Term C}
    (ht : t ∈ (f.component k).terms) :
    MvPolynomial.coeff t.1.exponents (f.value k) = t.2 := by
  rw [value_eq]
  exact Poly.coeff_value_of_mem (hf.component k) ht

theorem value_modify {f : Tuple C} {k : ℕ} (hk : k < f.size) (op : Poly C → Poly C) :
    (f.modify k op).value = Function.update f.value k (op (f.component k)).value := by
  funext j
  rw [value_eq, component_modify hk]
  split
  · rename_i hj
    rw [hj, Function.update_self]
  · rename_i hj
    rw [Function.update_of_ne hj, value_eq]

theorem value_modify_addTerm {f : Tuple C} {k : ℕ} (hk : k < f.size) (m : Monomial) (c : C) :
    (f.modify k fun p => p.addTerm m c).value =
      f.value + Pi.single k (MvPolynomial.monomial m.exponents c) := by
  rw [value_modify hk, Poly.value_addTerm, ← value_eq]
  funext j
  by_cases hj : j = k
  · rw [hj, Function.update_self, Pi.add_apply, Pi.single_eq_same]
  · rw [Function.update_of_ne hj, Pi.add_apply, Pi.single_eq_of_ne hj, add_zero]

theorem value_modify_removeTerm {len n : ℕ} {f : Tuple C} (hf : f.Shaped len n) {k : ℕ}
    (hk : k < len) {m : Monomial} (hm : m.length = n) :
    (f.modify k fun p => p.removeTerm m).value =
      f.value - Pi.single k
        (MvPolynomial.monomial m.exponents (MvPolynomial.coeff m.exponents (f.value k))) := by
  rw [value_modify (by rwa [hf.size_eq]), Poly.value_removeTerm (hf.component k) hm, ← value_eq]
  funext j
  by_cases hj : j = k
  · rw [hj, Function.update_self, Pi.sub_apply, Pi.single_eq_same]
  · rw [Function.update_of_ne hj, Pi.sub_apply, Pi.single_eq_of_ne hj, sub_zero]

theorem value_single {len k : ℕ} (hk : k < len) (p : Poly C) :
    (single len k p).value = Pi.single k p.value := by
  rw [single, value_modify (by rwa [zeros_size]), value_zeros]
  rfl

theorem isZero_iff_value {len n : ℕ} {f : Tuple C} (h : f.Shaped len n) :
    f.isZero = true ↔ f.value = 0 := by
  rw [isZero, List.all_eq_true]
  constructor
  · intro hz
    funext k
    rw [value_eq, component, List.getD_eq_getElem?_getD]
    cases hk : f.components[k]? with
    | none => rfl
    | some p =>
      have hp := List.mem_of_getElem? hk
      exact (Poly.isZero_iff_value (h.canonical p hp)).1 (hz p hp)
  · intro hv p hp
    obtain ⟨k, hk⟩ := List.mem_iff_getElem?.1 hp
    have hvk := congrFun hv k
    rw [value_eq, component, List.getD_eq_getElem?_getD, hk] at hvk
    exact (Poly.isZero_iff_value (h.canonical p hp)).2 hvk

theorem part_zero_eq_zero {n : ℕ} {X : Tuple C} (hX : X.Shaped n n)
    (h : (X.homogeneousPart 0).isZero = true) : part 0 X.value = 0 := by
  rw [← value_homogeneousPart]
  exact (isZero_iff_value (hX.homogeneousPart 0)).1 h

theorem le_minDegree {len n e : ℕ} {f : Tuple C} (hf : f.Shaped len n)
    (hlow : ∀ d < e, part d f.value = 0) {d : ℕ} (h : f.minDegree? = some d) : e ≤ d := by
  by_contra hlt
  obtain ⟨p, hp, hmin⟩ := List.mem_filterMap.1 (List.min?_mem h)
  obtain ⟨t, ht, hdegree⟩ := List.mem_map.1 (List.min?_mem hmin)
  obtain ⟨k, hk⟩ := List.mem_iff_getElem?.1 hp
  have hcomponent : f.component k = p := by
    rw [component, List.getD_eq_getElem?_getD, hk, Option.getD_some]
  have hpart := congrArg (MvPolynomial.coeff t.1.exponents) (congrFun (hlow d (not_le.1 hlt)) k)
  rw [part_apply, MvPolynomial.coeff_homogeneousComponent, Monomial.degree_exponents,
    if_pos hdegree, coeff_value_of_mem hf (by rwa [hcomponent])] at hpart
  have hnonzero := (hf.canonical p hp).terms.nonzero t ht
  rw [ExactField.isZero_eq_false_iff] at hnonzero
  exact hnonzero hpart

theorem part_eq_zero_of_le_minDegree {f : Tuple C} {d e : ℕ}
    (h : ∀ m, f.minDegree? = some m → e ≤ m) (hd : d < e) : part d f.value = 0 := by
  funext k
  ext s
  rw [part_apply, MvPolynomial.coeff_homogeneousComponent, Pi.zero_apply, MvPolynomial.coeff_zero]
  split
  · rename_i hdegree
    by_contra hne
    rw [value_eq, component, List.getD_eq_getElem?_getD] at hne
    obtain ⟨t, ht, rfl⟩ := Poly.exists_mem_of_coeff_ne_zero hne
    rw [Monomial.degree_exponents] at hdegree
    cases hk : f.components[k]? with
    | none =>
      rw [hk] at ht
      cases ht
    | some p =>
      rw [hk] at ht
      have hpmem : t.1.degree ∈ p.terms.map fun t => t.1.degree := List.mem_map_of_mem ht
      obtain ⟨a, ha⟩ := Option.isSome_iff_exists.1 (List.isSome_min?_of_mem hpmem)
      have hfmem : a ∈ f.components.filterMap Poly.minDegree? :=
        List.mem_filterMap.2 ⟨p, List.mem_of_getElem? hk, ha⟩
      obtain ⟨b, hb⟩ := Option.isSome_iff_exists.1 (List.isSome_min?_of_mem hfmem)
      have hat := (List.min?_eq_some_iff.1 ha).2 _ hpmem
      have hba := (List.min?_eq_some_iff.1 hb).2 _ hfmem
      have heb := h b hb
      omega
  · rfl

theorem lt_of_mem_vars_value {len n : ℕ} {f : Tuple C} (h : f.Shaped len n) {j k : ℕ}
    (hk : k ∈ (f.value j).vars) : k < n := by
  rw [value_eq] at hk
  exact Poly.lt_of_mem_vars_value (h.component j) hk

theorem value_foldl_addProduct {n : ℕ} {pqs : List (Poly C × Poly C)}
    (h : ∀ pq ∈ pqs, pq.1.Canonical n ∧ pq.2.Canonical n) (sum : Poly C) :
    (pqs.foldl Jacobian.addProduct sum).value =
      sum.value + (pqs.map fun pq => pq.1.value * pq.2.value).sum := by
  induction pqs generalizing sum with
  | nil => simp
  | cons pq pqs ih =>
    obtain ⟨⟨hp, hq⟩, hpqs⟩ := List.forall_mem_cons.1 h
    have hstep : (Jacobian.addProduct sum pq).value = sum.value + pq.1.value * pq.2.value := by
      unfold Jacobian.addProduct
      split
      · rename_i hz
        rw [Bool.or_eq_true, Poly.isZero_iff_value hp, Poly.isZero_iff_value hq] at hz
        rcases hz with hz | hz <;> simp [hz]
      · rw [Poly.value_add, Poly.value_mul hp hq]
    rw [List.foldl_cons, ih hpqs, hstep, List.map_cons, List.sum_cons, add_assoc]

theorem sum_zip_range (g : ℕ → Poly C) (vs : List (Poly C)) :
    ((List.zip ((List.range vs.length).map g) vs).map fun pq => pq.1.value * pq.2.value).sum =
      ∑ j ∈ Finset.range vs.length, (g j).value * Poly.imageValues vs j := by
  induction vs generalizing g with
  | nil => rfl
  | cons v vs ih =>
    rw [List.length_cons, List.range_succ_eq_map, Finset.sum_range_succ', List.map_cons,
      List.map_map, List.zip_cons_cons, List.map_cons, List.sum_cons, ih, add_comm]
    rfl

theorem value_contractRow_range {row : ℕ → Poly C} {m n : ℕ} {v : Tuple C}
    (hrow : ∀ j, (row j).Canonical n) (hv : v.Shaped m n) :
    (Jacobian.contractRow v ((List.range m).map row)).value =
      ∑ j ∈ Finset.range m, (row j).value * v.value j := by
  have hzip : ∀ pq ∈ List.zip ((List.range m).map row) v.components,
      pq.1.Canonical n ∧ pq.2.Canonical n := by
    intro pq hpq
    obtain ⟨hmem, hcomponent⟩ := List.of_mem_zip hpq
    obtain ⟨j, _, hj⟩ := List.mem_map.1 hmem
    exact ⟨hj ▸ hrow j, hv.canonical _ hcomponent⟩
  have hsum := sum_zip_range row v.components
  rw [hv.length_eq] at hsum
  rw [Jacobian.contractRow, value_foldl_addProduct hzip, Poly.value_zero, zero_add, hsum]
  rfl

theorem value_contractRow {n : ℕ} {p : Poly C} {w : Tuple C} (hp : p.Canonical n)
    (hw : w.Shaped n n) :
    (Jacobian.contractRow w (Jacobian.gradient n p)).value = along w.value p.value := by
  rw [Jacobian.gradient, value_contractRow_range hp.derivative hw,
    along_eq_sum fun k hk => Poly.lt_of_mem_vars_value hp hk]
  exact Finset.sum_congr rfl fun j _ => by rw [Poly.value_derivative]

theorem value_directionalDerivative {len n : ℕ} {f w : Tuple C} (hf : f.Shaped len n)
    (hw : w.Shaped n n) : (f.directionalDerivative w).value = derive w.value f.value := by
  funext k
  rw [derive_apply, value_eq f, component, List.getD_eq_getElem?_getD, value_eq, component,
    List.getD_eq_getElem?_getD]
  change Poly.value ((((f.components.map (Jacobian.gradient f.nvars)).map
    (Jacobian.contractRow w))[k]?).getD _) = _
  rw [List.map_map, List.getElem?_map, hf.nvars_eq]
  cases hk : f.components[k]? with
  | none => exact (map_zero (along w.value)).symm
  | some p => exact value_contractRow (hf.canonical p (List.mem_of_getElem? hk)) hw

theorem value_bracket {n : ℕ} {x y : Tuple C} (hx : x.Shaped n n) (hy : y.Shaped n n) :
    (x.bracket y).value = derive y.value x.value - derive x.value y.value := by
  have hsize : (x.directionalDerivative y).size = (y.directionalDerivative x).size := by
    rw [directionalDerivative_size, directionalDerivative_size, hx.size_eq, hy.size_eq]
  rw [bracket, value_sub hsize, value_directionalDerivative hx hy,
    value_directionalDerivative hy hx]

theorem value_apply (op : LieOperator) {len n : ℕ} {w g : Tuple C} (hw : w.Shaped n n)
    (hg : g.Shaped len n) (hlen : op = .bracket → len = n) :
    (op.apply w g).value = op.act w.value g.value := by
  cases op with
  | bracket =>
    obtain rfl := hlen rfl
    exact value_bracket hw hg
  | negatedDerivative =>
    rw [LieOperator.act_negatedDerivative, ← value_directionalDerivative hg hw]
    exact value_neg _

theorem Shaped.apply (op : LieOperator) {len n : ℕ} {w g : Tuple C} (hw : w.Shaped n n)
    (hg : g.Shaped len n) (hlen : op = .bracket → len = n) : (op.apply w g).Shaped len n := by
  cases op with
  | bracket =>
    obtain rfl := hlen rfl
    exact hw.bracket hg
  | negatedDerivative => exact (hg.directionalDerivative hw).neg

theorem imageValues_of_forall₂ {φ : MvPolynomial ℕ C → MvPolynomial ℕ C} (hzero : φ 0 = 0)
    {ps qs : List (Poly C)} (h : List.Forall₂ (fun p q => q.value = φ p.value) ps qs) (k : ℕ) :
    Poly.imageValues qs k = φ (Poly.imageValues ps k) := by
  induction h generalizing k with
  | nil => exact hzero.symm
  | cons hpq _ ih =>
    cases k with
    | zero => exact hpq
    | succ k => exact ih k

theorem substituteWithin_value {len m n : ℕ} {f u : Tuple C} (hf : f.Shaped len m)
    (hu : u.Shaped m n) (hn : m = 0 → n = 0) (limit : Option ℕ) :
    ∃ g, f.substituteWithin u limit = .ok g ∧ g.Shaped len n ∧
      ∀ k, g.value k = cut limit (MvPolynomial.aeval u.value (f.value k)) := by
  have hp : ∀ p ∈ f.components, ∃ q, p.substituteWithin u.components limit = .ok q ∧
      q.Canonical n ∧ q.value = cut limit (MvPolynomial.aeval u.value p.value) := by
    intro p hp
    have hcanonical := hf.canonical p hp
    rw [← hu.length_eq] at hcanonical
    refine Poly.substituteWithin_value hcanonical hu.canonical (fun hnil => hn ?_) limit
    rw [← hu.length_eq, hnil, List.length_nil]
  obtain ⟨qs, hqs, hrelated⟩ := exists_mapM_eq_ok hp
  refine ⟨⟨u.nvars, qs⟩, ?_, ⟨?_, hu.nvars_eq, ?_⟩, fun k => ?_⟩
  · simp only [substituteWithin, hqs]
  · exact hrelated.length_eq.symm.trans hf.size_eq
  · intro q hq
    obtain ⟨k, hk, rfl⟩ := List.mem_iff_getElem.1 hq
    exact (hrelated.get (hrelated.length_eq ▸ hk) hk).1
  · have hvalues : List.Forall₂ (fun p q : Poly C =>
        q.value = cut limit (MvPolynomial.aeval u.value p.value)) f.components qs :=
      hrelated.imp fun _ _ h => h.2
    exact imageValues_of_forall₂
      (φ := fun a => cut limit (MvPolynomial.aeval u.value a)) (by rw [map_zero, map_zero])
      hvalues k

end Tuple

end LieNormalForm

end
