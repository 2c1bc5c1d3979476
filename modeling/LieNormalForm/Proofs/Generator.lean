import LieNormalForm.Proofs.Action
import LieNormalForm.Proofs.Homological.Split
import LieNormalForm.Proofs.LieSeries.Composition
import LieNormalForm.Proofs.LieSeries.Velocity
import LieNormalForm.Generator

/-!
# The generator of a map and the map of a generator

The table of a map is the triangle over the derivative of its series, for operators that come
from the first column of the table itself: the parts of the generator are the velocity of the
map. A generator carries a map to the identity if and only if its parts are the velocity of this
map, so finding the generator of a map and acting with a generator on the coordinates are
inverse to each other, up to the order.
-/

noncomputable section

open Finset LieNormalForm.LieSeries

namespace LieNormalForm

variable {C W : Type} [Weight W] [ExactField C W]

section Velocity

/-- The velocity of a map, one field for each degree from two on. -/
def mapVelocity (φ : Sequence C) : ℕ → Sequence C :=
  velocity LieOperator.negatedDerivative.act (rise (K := C) (parts 1 φ))

theorem rise_parts_one (φ : Sequence C) (i : ℕ) :
    rise (K := C) (parts 1 φ) i = ((i + 1 : ℕ) : C) • part (i + 2) φ := rfl

variable [CharZero C] {n order : ℕ} {u φ : Sequence C}

theorem mapVelocity_mem (φ : Sequence C) (i : ℕ) : mapVelocity φ i ∈ homogeneous (i + 2) := by
  apply velocity_mem
  · intro j d w hw x hx
    exact LieOperator.negatedDerivative.act_mem hw hx
  · intro q
    exact Submodule.smul_mem _ _ (part_mem _ _)

/-- A map without constant term and with the identity as its linear part is carried to the
identity by those fields that its derivative is carried to. -/
theorem carries_identity_iff (hu : ∀ k, n ≤ k → u k = 0) (hzero : part 0 φ = 0)
    (hone : part 1 φ = (Tuple.identity n : Tuple C).value) :
    Carries u order φ (Tuple.identity n : Tuple C).value ↔
      ∀ i < order - 1, transport (LieOperator.negatedDerivative.family u)
        (rise (K := C) (parts 1 φ)) i = part (i + 2) u := by
  have hact : ∀ i, -LieOperator.negatedDerivative.family u i (parts 1 φ 0) = part (i + 2) u := by
    intro i
    have hvars : ∀ k, n ≤ k → part (i + 2) u k = 0 := by
      intro k hk
      rw [part_apply, hu k hk, map_zero]
    rw [LieOperator.family, LieOperator.act_negatedDerivative, neg_neg,
      show parts 1 φ 0 = (Tuple.identity n : Tuple C).value from hone, derive_identity n hvars]
  have hsteady : (∀ i < order - 1,
      transport (LieOperator.negatedDerivative.family u) (parts 1 φ) (i + 1) = 0) ↔ _ :=
    transport_succ_eq_zero_iff
  simp only [hact] at hsteady
  rw [← hsteady]
  have hshift : ∀ i, transport (LieOperator.negatedDerivative.family u) (parts 0 φ) (i + 1) =
      transport (LieOperator.negatedDerivative.family u) (parts 1 φ) i :=
    fun i => transport_succ _ hzero i
  constructor
  · intro h i hi
    rw [← hshift, h (i + 2) (by omega), part_of_mem (identity_mem n), if_neg (by omega)]
  · intro h i hi
    cases i with
    | zero =>
      rw [transport_zero, part_of_mem (identity_mem n), if_neg (by omega)]
      exact hzero
    | succ i =>
      rw [hshift]
      cases i with
      | zero =>
        rw [transport_zero, part_eq_self (identity_mem n)]
        exact hone
      | succ i =>
        rw [h i (by omega), part_of_mem (identity_mem n), if_neg (by omega)]

end Velocity

namespace NearIdentity

variable {n : ℕ} {map : Tuple C}

theorem value_seed (map : Tuple C) (k : ℕ) :
    (seed map k).value = (k.factorial : C) • rise (K := C) (parts 1 map.value) k := by
  rw [seed, Tuple.scaleWeight, Tuple.value_scale, Tuple.value_seed, ExactField.ofWeight_ofNat,
    rise_parts_one, smul_comm]
  rfl

variable [CharZero C]

/-- An entry that stands for entry `(i, k)` of the triangle that the velocity of a map makes over
its derivative. -/
abbrev IsMapEntry (n : ℕ) (map : Tuple C) : ℕ → ℕ → Tuple C → Prop :=
  IsEntry n n (fun j => LieOperator.negatedDerivative.act (mapVelocity map.value j))
    (rise (K := C) (parts 1 map.value))

theorem first_entry {i : ℕ} {e : Tuple C} (h : IsMapEntry n map i 0 e) :
    e.value = (i.factorial : C) • mapVelocity map.value i := by
  rw [h.value, entry_zero_right]
  exact congrArg _ (transport_velocity _ i)

section Terms

variable {D G : ℕ → Sequence C} {t : GradedTable (Tuple C)} {i k : ℕ}

theorem subtractTerms_spec
    (hcolumn : ∀ j ≤ i, ∃ w, t.get j 0 = .ok w ∧ w.Shaped n n ∧ w.value = D j)
    (ht : ∀ j ≤ i, ∃ g, t.get j k = .ok g ∧ g.Shaped n n ∧ g.value = G j) {count : ℕ}
    (hcount : count ≤ i + 1) {e : Tuple C} (he : e.Shaped n n) :
    ∃ e', subtractTerms t i k count e = .ok e' ∧ e'.Shaped n n ∧
      e'.value = e.value - ∑ j ∈ range count, (i.choose j : C) • derive (D (i - j)) (G j) := by
  induction count with
  | zero => exact ⟨e, rfl, he, by rw [range_zero, sum_empty, sub_zero]⟩
  | succ j ih =>
    obtain ⟨e', hok, he', hsum⟩ := ih (by omega)
    obtain ⟨direction, hdirection, hw, hwvalue⟩ := hcolumn (i - j) (by omega)
    obtain ⟨term, hterm, hg, hgvalue⟩ := ht j (by omega)
    simp only [subtractTerms, hok, hdirection, hterm]
    rw [sum_range_succ, ← sub_sub, ← hsum, ← hwvalue, ← hgvalue]
    split
    · rename_i hzero
      refine ⟨e', rfl, he', ?_⟩
      rw [Bool.or_eq_true, Tuple.isZero_iff_value hw, Tuple.isZero_iff_value hg] at hzero
      have hnone : derive direction.value term.value = 0 := by
        rcases hzero with hz | hz
        · rw [hz, map_zero, LinearMap.zero_apply]
        · rw [hz, map_zero]
      rw [hnone, smul_zero, sub_zero]
    · have hscaled := (hg.directionalDerivative hw).scaleWeight (Weight.binomial i j : W)
      refine ⟨_, rfl, he'.sub hscaled, ?_⟩
      rw [Tuple.value_sub (he'.size_eq.trans hscaled.size_eq.symm), Tuple.scaleWeight,
        Tuple.value_scale, ExactField.ofWeight_binomial, Tuple.value_directionalDerivative hg hw]

omit [CharZero C] in
theorem sum_derive_eq (v G : ℕ → Sequence C) (i : ℕ) :
    ∑ j ∈ range (i + 1), (i.choose j : C) • derive (((i - j).factorial : C) • v (i - j)) (G j) =
      -∑ q ∈ antidiagonal i, ((i.choose q.1 : C) * q.1.factorial) •
        LieOperator.negatedDerivative.act (v q.1) (G q.2) := by
  rw [← Nat.sum_antidiagonal_swap, Nat.sum_antidiagonal_eq_sum_range_succ_mk, ← sum_neg_distrib]
  refine sum_congr rfl fun j hj => ?_
  have hle := Nat.le_of_lt_succ (mem_range.1 hj)
  rw [Prod.swap_prod_mk, LieOperator.act_negatedDerivative, smul_neg, neg_neg,
    Nat.choose_symm hle, map_smul, LinearMap.smul_apply, smul_smul]

end Terms

theorem recurrence_isMapEntry {t : GradedTable (Tuple C)} {N i : ℕ}
    (ht : t.FilledTo (IsMapEntry n map) N (i + 1)) (hi : i + 1 ≤ N) :
    ∃ e, recurrence t i (N - (i + 1)) = .ok e ∧ IsMapEntry n map (i + 1) (N - (i + 1)) e := by
  obtain ⟨above, habove, hentry⟩ := ht i (N - (i + 1) + 1) (by omega)
  have hcolumn : ∀ j ≤ i, ∃ w, t.get j 0 = .ok w ∧ w.Shaped n n ∧
      w.value = (j.factorial : C) • mapVelocity map.value j := by
    intro j hj
    obtain ⟨w, hget, hw⟩ := ht j 0 (by omega)
    exact ⟨w, hget, hw.shaped, first_entry hw⟩
  have hbefore : ∀ j ≤ i, ∃ g, t.get j (N - (i + 1)) = .ok g ∧ g.Shaped n n ∧ g.value =
      entry (fun j => LieOperator.negatedDerivative.act (mapVelocity map.value j))
        (rise (K := C) (parts 1 map.value)) j (N - (i + 1)) := by
    intro j hj
    obtain ⟨g, hget, hg⟩ := ht j (N - (i + 1)) (by omega)
    exact ⟨g, hget, hg.shaped, hg.value⟩
  obtain ⟨e, hok, he, hsum⟩ := subtractTerms_spec hcolumn hbefore le_rfl hentry.shaped
  refine ⟨e, ?_, he, ?_⟩
  · simp only [recurrence, habove, hok]
  · rw [hsum, hentry.value, sum_derive_eq, sub_neg_eq_add, entry_succ]

theorem table_filled (hmap : map.Shaped n n) (count : ℕ) :
    ∃ t, table map count = .ok t ∧ t.FilledTo (IsMapEntry n map) count 0 := by
  induction count with
  | zero => exact ⟨.empty, rfl, .empty _⟩
  | succ N ih =>
    obtain ⟨t, htable, ht⟩ := ih
    have hfirst : IsMapEntry n map 0 N (seed map N) :=
      ⟨(hmap.seed 2 N).scaleWeight _, by rw [value_seed, entry_zero_left]⟩
    have hseeded : (t.insert 0 N (seed map N)).FilledTo (IsMapEntry n map) N 1 :=
      ht.insert (Nat.zero_le N) hfirst
    obtain ⟨t', hrows, ht'⟩ := hseeded.fillRows
      (fun i hi t' ht' => recurrence_isMapEntry ht' hi) le_rfl
    refine ⟨t', ?_, ht'.next⟩
    simp only [table, htable, hrows]

end NearIdentity

namespace Tuple

section Parts

variable {n order : ℕ} {map : Tuple C}

/-- The coordinates and, from degree two on, the parts of a map. -/
def nearIdentityPart (n : ℕ) (φ : Sequence C) : ℕ → Sequence C
  | 0 => (identity n : Tuple C).value
  | i + 1 => part (i + 2) φ

theorem nearIdentityPart_mem (n : ℕ) (φ : Sequence C) (i : ℕ) :
    nearIdentityPart n φ i ∈ homogeneous (i + 1) := by
  cases i with
  | zero => exact identity_mem n
  | succ i => exact part_mem _ _

theorem sumOnto_homogeneousPart (hmap : map.Shaped n n) (horder : 1 ≤ order) :
    ((identity n).sumOnto ((List.range' 2 (order - 1)).map map.homogeneousPart)).Shaped n n ∧
      ((identity n).sumOnto ((List.range' 2 (order - 1)).map map.homogeneousPart)).value =
        ∑ i ∈ range order, nearIdentityPart n map.value i := by
  have hparts : ∀ g ∈ (List.range' 2 (order - 1)).map map.homogeneousPart, g.Shaped n n := by
    intro g hg
    obtain ⟨d, _, rfl⟩ := List.mem_map.1 hg
    exact hmap.homogeneousPart d
  obtain ⟨hshape, hvalue⟩ := sumOnto_value (.identity n) hparts
  refine ⟨hshape, hvalue.trans ?_⟩
  obtain ⟨count, rfl⟩ := Nat.exists_eq_add_of_le' horder
  have hterms : (((List.range' 2 count).map map.homogeneousPart).map value) =
      (List.range count).map fun i => nearIdentityPart n map.value (i + 1) := by
    rw [List.range'_eq_map_range, List.map_map, List.map_map]
    apply List.map_congr_left
    intro i _
    exact (value_homogeneousPart map (2 + i)).trans (by rw [Nat.add_comm, nearIdentityPart])
  rw [sum_range_succ', add_comm, Nat.add_sub_cancel, hterms]
  rfl

theorem truncate_eq_self {len n : ℕ} {f : Tuple C} (hf : f.Shaped len n) {s : ℕ → Sequence C}
    (hs : ∀ i, s i ∈ homogeneous (i + 1)) (hvalue : f.value = ∑ i ∈ range order, s i) :
    f.truncate order = f := by
  apply value_injective (hf.truncate order) hf
  rw [value_truncate, sum_range_succ', hvalue, part_sum_of_lt hs order Nat.one_pos, add_zero]
  apply sum_congr rfl
  intro i hi
  rw [part_sum hs, if_pos (mem_range.1 hi)]

variable [CharZero C]

/-- The velocity of a map carries the coordinates with the parts of the map to the identity. -/
theorem carries_of_velocity {U f : Tuple C} (horder : 1 ≤ order) (hU : U.Shaped n n)
    (hvelocity : U.value = ∑ i ∈ range (order - 1), mapVelocity map.value i)
    (hf : f.value = ∑ i ∈ range order, nearIdentityPart n map.value i) :
    Carries U.value order f.value (identity n : Tuple C).value := by
  have hparts : ∀ i < order, part (i + 1) f.value = nearIdentityPart n map.value i := by
    intro i hi
    rw [hf, part_sum (nearIdentityPart_mem n map.value), if_pos hi]
  have hzero : part 0 f.value = 0 := by
    rw [hf, part_sum_of_lt (nearIdentityPart_mem n map.value) order Nat.one_pos]
  apply (carries_identity_iff (fun _ hk => hU.value_eq_zero hk) hzero (hparts 0 horder)).2
  intro i hi
  have hfamily : ∀ j < order - 1, part (j + 2) U.value = mapVelocity map.value j := by
    intro j hj
    rw [hvelocity, part_sum (mapVelocity_mem map.value), if_pos hj]
  have hrise : ∀ q ≤ i, rise (K := C) (parts 1 f.value) q = rise (K := C) (parts 1 map.value) q := by
    intro q hq
    rw [rise_parts_one, rise_parts_one, hparts (q + 1) (by omega), nearIdentityPart]
  rw [hfamily i hi, mapVelocity, ← transport_velocity, transport_congr_right hrise]
  apply transport_congr
  intro j hj
  rw [LieOperator.family, hfamily j (by omega), mapVelocity]

/-- A generator that is found for a map makes of the coordinates the map, up to the order and but
for what the tolerance of the check let pass. -/
theorem forwardAction_of_velocity {vars : Variables} {U : Tuple C} (horder : 1 ≤ order)
    (hmap : map.Shaped vars.size vars.size) (hU : U.Shaped vars.size vars.size)
    (hvelocity : U.value = ∑ i ∈ range (order - 1), mapVelocity map.value i) :
    (identity vars.size).forwardAction U vars order = .ok ((identity vars.size).sumOnto
      ((List.range' 2 (order - 1)).map map.homogeneousPart)) := by
  have hlow : ∀ d < 2, part d U.value = 0 := fun d hd => by
    rw [hvelocity, part_sum_of_lt (mapVelocity_mem map.value) _ hd]
  obtain ⟨hf, hvalue⟩ := sumOnto_homogeneousPart hmap horder
  rw [forwardAction_eq_truncate hU (checkGenerator_eq_ok hU hlow) (.identity vars.size) hf
    (carries_of_velocity horder hU hvelocity hvalue),
    truncate_eq_self hf (nearIdentityPart_mem _ _) hvalue]

end Parts

section Near

variable {R : Type} [RealNumber R] [ExactField C R] [Normed C R] {n : ℕ} {f : Tuple C}

theorem linearPart_isNearIdentity (hf : f.Shaped n n)
    (hone : part 1 f.value = (identity n : Tuple C).value)
    (htolerance : RealNumber.le (Normed.norm (0 : C)) (identityTolerance : R) = true) :
    f.linearPart.isNearIdentity (identityTolerance : R) = true := by
  have hentry : ∀ i < n, ∀ j < n, f.linearPart.entry i j = if i = j then 1 else 0 := by
    intro i hi j hj
    have hpart := congrArg (MvPolynomial.coeff (Finsupp.single j 1)) (congrFun hone i)
    rw [part_apply, MvPolynomial.coeff_homogeneousComponent, Finsupp.degree_single, if_pos rfl,
      value_identity hi, MvPolynomial.coeff_X] at hpart
    rw [linearPart_entry hf hi hj, slope, hpart]
    simp only [Finsupp.single_left_inj one_ne_zero]
  simp only [CoeffMatrix.isNearIdentity, linearPart_nrows, linearPart_ncols, hf.size_eq,
    hf.nvars_eq, beq_self_eq_true, Bool.true_and, List.all_eq_true, List.mem_range]
  intro i hi j hj
  rw [hentry i hi j hj, sub_self]
  exact htolerance

theorem zeros_approxEq_zeros (len n : ℕ) (tolerance : R) :
    (zeros len n : Tuple C).approxEq (zeros len n) tolerance = true := by
  have hcomponents : ∀ pq ∈ List.zip (zeros len n : Tuple C).components (zeros len n).components,
      pq.1.approxEq pq.2 tolerance = true := by
    intro pq hpq
    obtain ⟨hp, hq⟩ := List.of_mem_zip hpq
    rw [List.eq_of_mem_replicate hp, List.eq_of_mem_replicate hq, Poly.approxEq, beq_self_eq_true]
    rfl
  rw [approxEq, beq_self_eq_true, beq_self_eq_true, List.all_eq_true.2 hcomponents]
  rfl

theorem checkNearIdentity_eq_ok (hf : f.Shaped n n) (hzero : part 0 f.value = 0)
    (hone : part 1 f.value = (identity n : Tuple C).value)
    (htolerance : RealNumber.le (Normed.norm (0 : C)) (identityTolerance : R) = true) :
    f.checkNearIdentity = .ok () := by
  have hconstant : f.homogeneousPart 0 = zeros n n := by
    apply value_injective (hf.homogeneousPart 0) (.zeros n n)
    rw [value_homogeneousPart, hzero, value_zeros]
  rw [checkNearIdentity, if_pos (linearPart_isNearIdentity hf hone htolerance), hconstant,
    hf.size_eq, hf.nvars_eq, if_pos (zeros_approxEq_zeros n n _)]

end Near

section Inverse

variable {R : Type} [RealNumber R] [ExactField C R] [Normed C R] [CharZero C] {map : Tuple C}
  {vars : Variables} {order : ℕ}

theorem generatorOf_value (hmap : map.Shaped vars.size vars.size)
    (hcheck : map.checkField vars .nearIdentityMap = .ok ()) (hnear : map.checkNearIdentity = .ok ())
    (order : ℕ) :
    ∃ U, map.generatorOf vars order = .ok U ∧ U.Shaped vars.size vars.size ∧
      U.value = ∑ i ∈ range (order - 1), mapVelocity map.value i := by
  obtain ⟨t, htable, ht⟩ := NearIdentity.table_filled hmap (order - 1)
  obtain ⟨column, hcolumn, hlength, hentries⟩ := ht.firstColumn le_rfl
  obtain ⟨hshape, hvalue⟩ := weightedSum_value (v := mapVelocity map.value) hmap
    fun k f hk => ⟨(hentries k f hk).shaped, NearIdentity.first_entry (hentries k f hk)⟩
  refine ⟨weightedSum map column, ?_, hshape, ?_⟩
  · simp only [generatorOf, hcheck, hnear, htable, hcolumn]
  · rw [hvalue, hlength]

theorem generatorOf_of_carries {U u : Tuple C} (horder : 1 ≤ order)
    (hU : U.Shaped vars.size vars.size) (hlow : ∀ d < 2, part d U.value = 0)
    (hu : u.Shaped vars.size vars.size)
    (hcarried : Carries U.value order u.value (identity vars.size : Tuple C).value)
    (htolerance : RealNumber.le (Normed.norm (0 : C)) (identityTolerance : R) = true) :
    u.generatorOf vars order = .ok (U.truncate order) := by
  have hzero : part 0 u.value = 0 := by
    have hpart := hcarried 0 (Nat.zero_le _)
    rwa [transport_zero, part_of_mem (identity_mem _), if_neg (by omega)] at hpart
  have hone : part 1 u.value = (identity vars.size : Tuple C).value := by
    have hpart := hcarried 1 horder
    rwa [transport_succ _ hzero, transport_zero, part_eq_self (identity_mem _)] at hpart
  have hvelocity := velocity_unique (w := fun i => part (i + 2) U.value)
    ((carries_identity_iff (fun _ hk => hU.value_eq_zero hk) hzero hone).1 hcarried)
  have hfield : u.checkField vars .nearIdentityMap = .ok () := by
    rw [checkField, if_pos hu.size_eq, checkFunctions, if_pos hu.nvars_eq]
  obtain ⟨U', hgeneratorOf, hU', hvalue⟩ := generatorOf_value hu hfield
    (checkNearIdentity_eq_ok hu hzero hone htolerance) order
  rw [hgeneratorOf]
  refine congrArg Except.ok (value_injective hU' (hU.truncate order) ?_)
  obtain ⟨count, rfl⟩ := Nat.exists_eq_add_of_le' horder
  rw [hvalue, value_truncate, sum_range_succ', sum_range_succ', hlow 0 (by omega),
    hlow 1 (by omega), add_zero, add_zero, Nat.add_sub_cancel]
  apply sum_congr rfl
  intro i hi
  exact (hvelocity i (mem_range.1 hi)).symm

end Inverse

section Plane

/-- The map `(x + 10⁻¹⁰ + x², (1 + 10⁻¹⁰)·y + 3xy)`, the identity up to the tolerance. -/
def planeMap : Tuple ℚ :=
  ⟨2, [⟨2, [([0, 0], 1 / 10 ^ 10), ([1, 0], 1), ([2, 0], 1)]⟩,
    ⟨2, [([0, 1], 1 + 1 / 10 ^ 10), ([1, 1], 3)]⟩]⟩

end Plane

end Tuple

end LieNormalForm

end
