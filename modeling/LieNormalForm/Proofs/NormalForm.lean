import LieNormalForm.Proofs.Action
import LieNormalForm.Proofs.Homological.Equation
import LieNormalForm.NormalForm

/-!
# The normal form and the adjoint action

Over exact coefficients the loop of the normal form fills the triangle over the parts of the
field from degree one on, for the generator that it finds on the way: the right side of the
homological equation is the next entry but for the term of the unknown generator part, and the
bracket of the solution with the linear part makes up for it. So the normal form is the field
carried forward along its generator, and the field is the normal form pulled back.
-/

noncomputable section

open Finset LieNormalForm.LieSeries

namespace LieNormalForm

variable {C W : Type} [Weight W] [ExactField C W]

theorem LieOperator.act_bracket_swap (w g : Sequence C) :
    bracket.act w g = -bracket.act g w := by
  rw [act_bracket, act_bracket, neg_sub]

namespace NormalForm

/-- The operators of the terms of a generator. -/
def operators (Y : ℕ → Sequence C) (j : ℕ) : Module.End C (Sequence C) :=
  LieOperator.bracket.act (Y j)

theorem operators_raise {Y : ℕ → Sequence C} (hY : ∀ k, Y k ∈ homogeneous (k + 2)) (j d : ℕ) :
    ∀ f ∈ homogeneous d, operators Y j f ∈ homogeneous (d + j + 1) :=
  fun _ hf => LieOperator.bracket.act_mem (hY j) hf

/-- What is known after `N` steps: the generator terms of degree less than `N + 2`, and the
entries of the triangle up to the diagonal `N`, which depend on no others. -/
structure Progress.Reaches (n N : ℕ) (x Y : ℕ → Sequence C) (s : Progress C) : Prop where
  filled : s.table.FilledTo (IsEntry n n (operators Y) x) (N + 1) 0
  length : s.family.length = N
  family : ∀ k w, s.family[k]? = some w → w.Shaped n n ∧ w.value = (k.factorial : C) • Y k
  homogeneous : ∀ k, Y k ∈ homogeneous (k + 2)
  above : ∀ k, N ≤ k → Y k = 0

theorem Progress.Reaches.represents {n N : ℕ} {x Y : ℕ → Sequence C} {s : Progress C}
    (h : s.Reaches n N x Y) : LieOperator.bracket.Represents n (operators Y) 0 s.family := by
  intro k w hk
  obtain ⟨hshape, hvalue⟩ := h.family k w hk
  refine ⟨hshape, fun g => ?_⟩
  rw [hvalue, LieOperator.act_smul, Nat.zero_add]
  rfl

section Step

variable {field : Tuple C} {n : ℕ} {strategy : FormStrategy} {test : ZeroTest C}

theorem isLinear_homogeneousPart (f : Tuple C) : (f.homogeneousPart 1).IsLinear := by
  intro p hp t ht
  obtain ⟨q, _, rfl⟩ := List.mem_map.1 hp
  have hdegree := (List.mem_filter.1 ht).2
  simpa using hdegree

theorem start_reaches (hX : field.Shaped n n) :
    (⟨GradedTable.empty.insert 0 0 (field.seed 1 0), []⟩ : Progress C).Reaches n 0
      (parts 1 field.value) 0 := by
  have hfirst : IsEntry n n (operators (0 : ℕ → Sequence C)) (parts 1 field.value) 0 0
      (field.seed 1 0) :=
    ⟨hX.seed 1 0, by rw [Tuple.value_seed, entry_zero_left]⟩
  refine ⟨((GradedTable.FilledTo.empty _).insert le_rfl hfirst).next, rfl, ?_, ?_, ?_⟩
  · intro k w hk
    cases hk
  · intro k
    exact Submodule.zero_mem _
  · intro k _
    rfl

variable [CharZero C]

/-- The recurrence with the generator terms found so far, in every row of the next diagonal and
for the right side of the homological equation. -/
theorem Progress.Reaches.recurrence {N : ℕ} {x Y : ℕ → Sequence C} {s : Progress C}
    (h : s.Reaches n N x Y) {t : GradedTable (Tuple C)} {i : ℕ} (hi : i ≤ N)
    (ht : t.FilledTo (IsEntry n n (operators Y) x) (N + 1) (i + 1)) :
    ∃ e, LieOperator.bracket.recurrence s.family t i (N + 1 - (i + 1)) = .ok e ∧
      IsEntry n n (operators Y) x (i + 1) (N + 1 - (i + 1)) e := by
  refine LieOperator.recurrence_isEntry (fun _ => rfl) ht (by omega) h.represents fun k hk _ => ?_
  have hlength := h.length
  rw [operators, h.above k (by omega), LieOperator.act_zero]

/-- With the solution of the homological equation as the next generator term, the remainder is
the next entry of the first column. -/
theorem remainder_isEntry {A forcing : Tuple C} {eigenvalues : List C} {split : Split C} {N : ℕ}
    {x Y : ℕ → Sequence C} (hA : A.Shaped n n) (hx : x 0 = A.value) (habove : Y N = 0)
    (hforcing : IsEntry n n (operators Y) x (N + 1) 0 forcing)
    (h : split.Solves A eigenvalues forcing test) :
    IsEntry n n (operators (Function.update Y N ((N.factorial : C)⁻¹ • split.generator.value))) x
      (N + 1) 0 split.remainder := by
  refine ⟨(h.shapes hforcing.shaped).1, ?_⟩
  have hbefore : ∀ j < N, operators Y j =
      operators (Function.update Y N ((N.factorial : C)⁻¹ • split.generator.value)) j := by
    intro j hj
    rw [operators, operators, Function.update_of_ne hj.ne]
  have hzero : operators Y N = 0 := by rw [operators, habove, LieOperator.act_zero]
  have hequation := h.value_equation hA hforcing.shaped
  rw [← LieOperator.act_bracket, hforcing.value] at hequation
  rw [entry_succ_of_eq hbefore hzero, entry_zero_left, Nat.factorial_zero, Nat.cast_one, one_smul,
    hx, operators, Function.update_self, LieOperator.act_smul, LinearMap.smul_apply,
    smul_inv_smul₀ (cast_factorial_ne_zero N), LieOperator.act_bracket_swap, ← hequation]
  abel

/-- One more generator term fills the first column of its diagonal, and changes no entry that is
there. -/
theorem Progress.Reaches.extend {N : ℕ} {x Y : ℕ → Sequence C} {s : Progress C}
    (h : s.Reaches n N x Y) {t : GradedTable (Tuple C)}
    (ht : t.FilledTo (IsEntry n n (operators Y) x) (N + 1) (N + 1)) {remainder w : Tuple C}
    {y : Sequence C} (hentry : IsEntry n n (operators (Function.update Y N y)) x (N + 1) 0 remainder)
    (hw : w.Shaped n n) (hvalue : w.value = (N.factorial : C) • y)
    (hy : y ∈ LieNormalForm.homogeneous (N + 2)) :
    (⟨t.insert (N + 1) 0 remainder, s.family ++ [w]⟩ : Progress C).Reaches n (N + 1) x
      (Function.update Y N y) := by
  have hsame : t.FilledTo (IsEntry n n (operators (Function.update Y N y)) x) (N + 1) (N + 1) := by
    refine ht.imp fun i m e hi he => ⟨he.shaped, ?_⟩
    rw [he.value]
    refine entry_congr (fun j hj => ?_) _ _
    rw [operators, operators, Function.update_of_ne (by omega)]
  have hfirst := hsame.insert le_rfl (by rwa [Nat.sub_self])
  rw [Nat.sub_self] at hfirst
  refine ⟨hfirst.next, ?_, ?_, ?_, ?_⟩
  · rw [List.length_append, h.length, List.length_singleton]
  · apply forall_getElem?_concat
    · intro k w' hk
      have hlt := (List.getElem?_eq_some_iff.1 hk).1
      rw [Function.update_of_ne (by have hlength := h.length; omega)]
      exact h.family k w' hk
    · rw [h.length, Function.update_self]
      exact ⟨hw, hvalue⟩
  · intro k
    by_cases hk : k = N
    · rwa [hk, Function.update_self]
    · rw [Function.update_of_ne hk]
      exact h.homogeneous k
  · intro k hk
    rw [Function.update_of_ne (by omega)]
    exact h.above k (by omega)

theorem advance_reaches (hX : field.Shaped n n)
    (hdiagonal : strategy = .semisimple → (field.homogeneousPart 1).IsDiagonal) {N : ℕ}
    {s s' : Progress C} {Y : ℕ → Sequence C}
    (h : advance field (field.homogeneousPart 1) (field.homogeneousPart 1).diagonalEigenvalues
      strategy test N s = .ok s')
    (hs : s.Reaches n N (parts 1 field.value) Y) :
    ∃ y, s'.Reaches n (N + 1) (parts 1 field.value) (Function.update Y N y) := by
  have hA := hX.homogeneousPart 1
  have hlinear := isLinear_homogeneousPart field
  -- the next diagonal but for its first column
  have hfirst : IsEntry n n (operators Y) (parts 1 field.value) 0 (N + 1) (field.seed 1 (N + 1)) :=
    ⟨hX.seed 1 _, by rw [Tuple.value_seed, entry_zero_left]⟩
  have hseeded : (s.table.insert 0 (N + 1) (field.seed 1 (N + 1))).FilledTo
      (IsEntry n n (operators Y) (parts 1 field.value)) (N + 1) 1 :=
    hs.filled.insert (Nat.zero_le _) hfirst
  obtain ⟨t, hrows, ht⟩ := hseeded.fillRows (fun i hi t' ht' => hs.recurrence hi.le ht')
    (Nat.le_succ N)
  obtain ⟨forcing, hforcing, hentry⟩ := hs.recurrence le_rfl ht
  rw [Nat.sub_self] at hforcing hentry
  simp only [advance, hrows, hforcing] at h
  split at h
  · cases h
  · rename_i split hsolve
    cases h
    obtain ⟨htriangular, hsolves⟩ := FormStrategy.solve_solves hA hlinear hdiagonal hentry.shaped
      hsolve
    -- the new term acts like a part of a generator, as it has the degree of the right side
    have hdegree : forcing.value ∈ homogeneous (N + 2) := by
      rw [hentry.value]
      exact entry_mem (operators_raise hs.homogeneous) (parts_mem 1 field.value) (N + 1) 0
    have hgenerator := (hsolves.mem_homogeneous hA hlinear htriangular hentry.shaped hdegree).2
    have hremainder := remainder_isEntry hA (Tuple.value_homogeneousPart field 1).symm
      (hs.above N le_rfl) hentry hsolves
    exact ⟨_, hs.extend ht hremainder (hsolves.shapes hentry.shaped).2
      (smul_inv_smul₀ (cast_factorial_ne_zero N) _).symm (Submodule.smul_mem _ _ hgenerator)⟩

theorem progress_reaches (hX : field.Shaped n n)
    (hdiagonal : strategy = .semisimple → (field.homogeneousPart 1).IsDiagonal) {count : ℕ}
    {s : Progress C}
    (h : progress field (field.homogeneousPart 1) (field.homogeneousPart 1).diagonalEigenvalues
      strategy test count = .ok s) :
    ∃ Y, s.Reaches n count (parts 1 field.value) Y := by
  refine progress_keeps (P := fun N s => ∃ Y, s.Reaches n N (parts 1 field.value) Y)
    ⟨0, start_reaches hX⟩ (fun N s s' h hs => ?_) h
  obtain ⟨Y, hs⟩ := hs
  obtain ⟨y, hs'⟩ := advance_reaches hX hdiagonal h hs
  exact ⟨_, hs'⟩

end Step

/-- The field of a normal form is what another field is carried to along the generator, part by
part from degree one on. -/
structure CarriedFrom (n order : ℕ) (X : Tuple C) (N : NormalForm C) : Prop where
  source : X.Shaped n n
  field : N.field.Shaped n n
  generator : N.generator.Shaped n n
  low : ∀ d < 2, part d N.generator.value = 0
  value : N.field.value = ∑ i ∈ range order,
    transport (LieOperator.bracket.family N.generator.value) (parts 1 X.value) i

namespace CarriedFrom

variable {n order : ℕ} {X : Tuple C} {N : NormalForm C}

theorem transport_parts (hconstant : part 0 X.value = 0) (l : ℕ → Module.End C (Sequence C))
    (i : ℕ) : transport l (parts 0 X.value) (i + 1) = transport l (parts 1 X.value) i :=
  transport_succ l hconstant i

variable [CharZero C]

theorem part_field (h : N.CarriedFrom n order X) (hconstant : part 0 X.value = 0) {i : ℕ}
    (hi : i ≤ order) :
    part i N.field.value =
      transport (LieOperator.bracket.family N.generator.value) (parts 0 X.value) i := by
  have hmem := transport_mem (LieOperator.bracket.family_mem N.generator.value)
    (parts_mem 1 X.value)
  rw [h.value]
  cases i with
  | zero => rw [part_sum_of_lt hmem order Nat.one_pos, transport_zero, parts, hconstant]
  | succ i => rw [part_sum hmem, if_pos (Nat.lt_of_succ_le hi), transport_parts hconstant]

end CarriedFrom

end NormalForm

namespace Tuple

variable [CharZero C] {X : Tuple C} {vars : Variables} {order : ℕ} {strategy : FormStrategy}
  {test : ZeroTest C} {N : NormalForm C}

theorem normalFormWith_carriedFrom (hX : X.WellFormed)
    (hdiagonal : strategy = .semisimple → (X.homogeneousPart 1).IsDiagonal)
    (h : X.normalFormWith vars order strategy test = .ok N) :
    N.CarriedFrom vars.size order X := by
  obtain ⟨hcheck, _, s, components, hs, hcolumn, rfl⟩ := normalFormWith_eq_ok h
  obtain ⟨hsize, hvars⟩ := checkField_ok hcheck
  have hX := hX.shaped hsize hvars
  obtain ⟨Y, hY⟩ := NormalForm.progress_reaches hX hdiagonal hs
  obtain ⟨column, hok, hlength, hentries⟩ :=
    hY.filled.firstColumn (show order ≤ order - 1 + 1 by omega)
  rw [hcolumn] at hok
  obtain rfl := Except.ok.inj hok
  obtain ⟨hfield, hfieldValue⟩ := weightedSum_value
    (v := transport (NormalForm.operators Y) (parts 1 X.value)) hX
    fun k f hk => ⟨(hentries k f hk).shaped, (hentries k f hk).value⟩
  obtain ⟨hgenerator, hgeneratorValue⟩ := weightedSum_value hX hY.family
  have hfamily : LieOperator.bracket.family (weightedSum X s.family).value =
      NormalForm.operators Y := by
    funext j
    rw [LieOperator.family, hgeneratorValue, part_sum hY.homogeneous, NormalForm.operators]
    split
    · rfl
    · rename_i hj
      rw [hY.above j (by have hlen := hY.length; omega)]
  refine ⟨hX, hfield, hgenerator, fun d hd => ?_, ?_⟩
  · rw [hgeneratorValue, part_sum_of_lt hY.homogeneous _ hd]
  · rw [hfieldValue, hlength, hfamily]

section Coupled

/-- The field `(2x + y + y², y + x²)`, with the resonant term `y²` in its normal form. -/
def coupledField : Tuple ℚ :=
  ⟨2, [⟨2, [([0, 1], 1), ([0, 2], 1), ([1, 0], 2)]⟩, ⟨2, [([0, 1], 1), ([2, 0], 1)]⟩]⟩

end Coupled

end Tuple

end LieNormalForm

end
