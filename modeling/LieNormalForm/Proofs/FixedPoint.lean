import LieNormalForm.Proofs.Canonical.NormalForm
import LieNormalForm.Proofs.Outcome
import LieNormalForm.Proofs.Graded.Recurrence

/-!
# Fields in normal form

A field with resonant terms only, from degree two on, is its own normal form. No generator term
comes up, so the recurrence shifts the seeds down the table; the right side of every homological
equation is a seed and stays as it is. Only in the sum at the end do the weights have to cancel,
and this is where the coefficients have to be exact.
-/

namespace LieNormalForm

section Law

variable {C W : Type} [Weight W] [Coefficient C W]

/-- Generator terms that vanish leave nothing of the recurrence but a shift. -/
theorem LieOperator.recurrence_of_isZero {op : LieOperator} {ws : List (Tuple C)}
    {t : GradedTable (Tuple C)} {i m : ℕ} (hws : ∀ w ∈ ws, w.isZero = true)
    (ht : ∀ k ≤ i, ∃ g, t.get k m = .ok g) {e : Tuple C} (he : t.get i (m + 1) = .ok e) :
    op.recurrence ws t i m = .ok e := by
  have hadd : ∀ j, addTerms op t i m j ws e = .ok e := by
    induction ws with
    | nil => exact fun _ => rfl
    | cons w ws ih =>
      intro j
      obtain ⟨hw, hws⟩ := List.forall_mem_cons.1 hws
      obtain ⟨g, hg⟩ := ht (i - j) (Nat.sub_le i j)
      simp [addTerms, hg, hw, ih hws]
  simp only [recurrence, he, hadd]

namespace Tuple

theorem isZero_zeros (len n : ℕ) : (zeros len n : Tuple C).isZero = true := by
  simp [isZero, zeros, Poly.isZero, Poly.zero]

/-- The terms from degree two up to the order are resonant. -/
def Resonant (X : Tuple C) (order : ℕ) (test : ZeroTest C) : Prop :=
  X.Supported fun k m => 2 ≤ m.degree → m.degree ≤ order →
    Accepts (X.homogeneousPart 1).diagonalEigenvalues test k m

instance (X : Tuple C) (order : ℕ) (test : ZeroTest C) : Decidable (X.Resonant order test) :=
  inferInstanceAs (Decidable (X.Supported _))

theorem Resonant.seed {X : Tuple C} {order : ℕ} {test : ZeroTest C} (h : X.Resonant order test) {N : ℕ}
    (hN : N + 2 ≤ order) :
    (X.seed 1 (N + 1)).Supported (Accepts (X.homogeneousPart 1).diagonalEigenvalues test) := by
  have hpart : (X.homogeneousPart (N + 1 + 1)).Supported
      (Accepts (X.homogeneousPart 1).diagonalEigenvalues test) := by
    refine h.map fun k p hp => (hp.filterTerms _).imp fun m hm => ?_
    obtain ⟨haccepts, hdegree⟩ := hm
    have hdegree : m.degree = N + 2 := by simpa using hdegree
    exact haccepts (by omega) (by omega)
  exact hpart.scaleWeight _

end Tuple

namespace NormalForm

/-- After `N` steps the table holds nothing but seeds, and no generator term has come up. -/
structure Progress.Still (field : Tuple C) (n N : ℕ) (s : Progress C) : Prop where
  filled : s.table.FilledTo (fun i m e => e = field.seed 1 (i + m)) (N + 1) 0
  family : s.family = List.replicate N (.zeros n n)

variable {X : Tuple C} {n N order : ℕ} {strategy : FormStrategy} {test : ZeroTest C}
  {s : Progress C}

theorem Progress.Still.recurrence (hs : s.Still X n N) {t : GradedTable (Tuple C)} {i : ℕ}
    (hi : i ≤ N) (ht : t.FilledTo (fun i m e => e = X.seed 1 (i + m)) (N + 1) (i + 1)) :
    LieOperator.bracket.recurrence s.family t i (N + 1 - (i + 1)) = .ok (X.seed 1 (N + 1)) := by
  obtain ⟨e, hget, rfl⟩ := ht i (N + 1 - (i + 1) + 1) (by omega)
  rw [show i + (N + 1 - (i + 1) + 1) = N + 1 by omega] at hget
  refine LieOperator.recurrence_of_isZero (fun w hw => ?_) (fun k hk => ?_) hget
  · rw [hs.family] at hw
    rw [List.eq_of_mem_replicate hw]
    exact Tuple.isZero_zeros n n
  · obtain ⟨g, hg, -⟩ := ht k (N + 1 - (i + 1)) (by omega)
    exact ⟨g, hg⟩

theorem start_still (X : Tuple C) (n : ℕ) :
    (⟨GradedTable.empty.insert 0 0 (X.seed 1 0), []⟩ : Progress C).Still X n 0 :=
  ⟨((GradedTable.FilledTo.empty _).insert (Nat.le_refl 0) rfl).next, rfl⟩

theorem advance_still (hX : X.Shaped n n) (hresonant : X.Resonant order test)
    (htriangular : strategy = .nilpotent → (X.homogeneousPart 1).isUpperTriangular = true)
    (hN : N + 2 ≤ order) (hs : s.Still X n N) :
    ∃ s', advance X (X.homogeneousPart 1) (X.homogeneousPart 1).diagonalEigenvalues strategy test
      N s = .ok s' ∧ s'.Still X n (N + 1) := by
  have hA := hX.homogeneousPart 1
  have hseeded : (s.table.insert 0 (N + 1) (X.seed 1 (N + 1))).FilledTo
      (fun i m e => e = X.seed 1 (i + m)) (N + 1) 1 :=
    hs.filled.insert (Nat.zero_le _) (by rw [Nat.zero_add, Nat.sub_zero])
  obtain ⟨t, hrows, ht⟩ := hseeded.fillRows
    (fun i hi t' ht' => ⟨_, hs.recurrence hi.le ht', by congr 1; omega⟩) (Nat.le_succ N)
  have hforcing := hs.recurrence le_rfl ht
  rw [Nat.sub_self] at hforcing
  have hsolve : strategy.solve (X.homogeneousPart 1) (X.homogeneousPart 1).diagonalEigenvalues
      (X.seed 1 (N + 1)) test = .ok ⟨X.seed 1 (N + 1), .zeros n n⟩ := by
    refine FormStrategy.solve_resonant hA htriangular (hX.seed 1 (N + 1))
      (hX.graded_seed 1 (N + 1)) hA.diagonalEigenvalues_length fun k _ u hu => ?_
    have hlength := ((hX.seed 1 (N + 1)).component k).terms.length u hu
    exact classify_of_accepts (hA.diagonalEigenvalues_length.trans hlength.symm)
      (hresonant.seed hN k u hu)
  simp only [advance, hrows, hforcing, hsolve]
  refine ⟨_, rfl, ?_, ?_⟩
  · have hfilled := ht.insert le_rfl (show X.seed 1 (N + 1) = X.seed 1 (N + 1 + (N + 1 - (N + 1)))
      by rw [Nat.sub_self, Nat.add_zero])
    rw [Nat.sub_self] at hfilled
    exact hfilled.next
  · rw [hs.family, List.replicate_succ']

theorem progress_still (hX : X.Shaped n n) (hresonant : X.Resonant order test)
    (htriangular : strategy = .nilpotent → 2 ≤ order →
      (X.homogeneousPart 1).isUpperTriangular = true) {count : ℕ} (hcount : count < order) :
    ∃ s, progress X (X.homogeneousPart 1) (X.homogeneousPart 1).diagonalEigenvalues strategy test
      count = .ok s ∧ s.Still X n count := by
  induction count with
  | zero => exact ⟨_, rfl, start_still X n⟩
  | succ N ih =>
    obtain ⟨s, hok, hs⟩ := ih (by omega)
    simp only [progress, hok]
    exact advance_still hX hresonant (fun h => htriangular h (by omega)) hcount hs

end NormalForm

theorem Tuple.normalFormWith_resonant {X : Tuple C} {vars : Variables} {order : ℕ}
    {strategy : FormStrategy} {test : ZeroTest C} (hX : X.Shaped vars.size vars.size)
    (horder : 1 ≤ order) (hresonant : X.Resonant order test)
    (htriangular : strategy = .nilpotent → 2 ≤ order →
      (X.homogeneousPart 1).isUpperTriangular = true) :
    ∃ N, X.normalFormWith vars order strategy test = .ok N ∧
      N.field = weightedSum X N.components ∧ N.components.length = order ∧
      (∀ i f, N.components[i]? = some f → f = X.seed 1 i) ∧
      N.generator = weightedSum X N.family ∧
      N.family = List.replicate (order - 1) (zeros vars.size vars.size) := by
  obtain ⟨s, hok, hs⟩ := NormalForm.progress_still hX hresonant htriangular
    (Nat.sub_lt horder Nat.one_pos)
  have hrows : order ≤ order - 1 + 1 := by omega
  obtain ⟨column, hcolumn, hlength, hentries⟩ := hs.filled.firstColumn hrows
  have hnot : ¬order < 1 := by omega
  refine ⟨⟨weightedSum X column, weightedSum X s.family,
    (X.homogeneousPart 1).diagonalEigenvalues, s.family, column⟩, ?_, rfl, hlength, hentries, rfl,
    hs.family⟩
  simp only [normalFormWith, checkField, checkFunctions, hX.size_eq, hX.nvars_eq, if_true, hnot,
    if_false, hok, hcolumn]

end Law

section Exact

open Finset

variable {C W : Type} [Weight W] [ExactField C W]

theorem Poly.value_band (p : Poly C) (low high : ℕ) :
    (p.filterTerms fun m => decide (low ≤ m.degree ∧ m.degree ≤ high)).value =
      (∑ d ∈ Ico low (high + 1), MvPolynomial.homogeneousComponent d) p.value := by
  refine value_filterTerms_eq p fun t _ => ?_
  have hmem := MvPolynomial.isHomogeneous_monomial t.2 (Monomial.degree_exponents t.1)
  simp [LinearMap.sum_apply, termValue, MvPolynomial.homogeneousComponent_of_mem hmem]

namespace Tuple

theorem value_band (f : Tuple C) (low high : ℕ) :
    (f.band low high).value = ∑ d ∈ Ico low (high + 1), part d f.value := by
  funext k
  have hcomponent : (f.band low high).value k =
      (∑ d ∈ Ico low (high + 1), MvPolynomial.homogeneousComponent d) (f.value k) :=
    value_map (fun p => Poly.value_band p low high) k
  rw [hcomponent, Finset.sum_apply, LinearMap.sum_apply]
  rfl

variable {X : Tuple C} {n : ℕ}

/-- The first summand of a weighted sum of seeds and higher parts is the linear part. -/
theorem weightedSum_linear (hX : X.Shaped n n) {fs : List (Tuple C)}
    (hfs : ∀ f ∈ fs, f.Supported fun _ m => (m.degree == 1) = false) :
    (weightedSum X (X.seed 1 0 :: fs)).homogeneousPart 1 = X.homogeneousPart 1 := by
  have hscaled := (hX.seed 1 0).scaleWeight (Weight.inverseFactorial 0 : W)
  have hzeros : (zeros X.size X.nvars : Tuple C).Shaped n n := by
    rw [hX.size_eq, hX.nvars_eq]
    exact .zeros n n
  refine (weightedSumFrom_map_filterTerms hfs).trans ?_
  refine value_injective ((hzeros.add hscaled).homogeneousPart 1) (hX.homogeneousPart 1) ?_
  have hvalue : ((X.seed 1 0).scaleWeight (Weight.inverseFactorial 0 : W)).value =
      part 1 X.value := by
    rw [scaleWeight, value_scale, ExactField.ofWeight_inverseFactorial, value_seed, parts]
    simp
  refine (value_homogeneousPart _ 1).trans ?_
  rw [value_add (hzeros.size_eq.trans hscaled.size_eq.symm), hvalue, value_zeros, zero_add,
    part_eq_self (part_mem 1 X.value), value_homogeneousPart]

variable {vars : Variables} {order : ℕ} {strategy : FormStrategy} {test : ZeroTest C}
  {N : NormalForm C}

theorem normalFormWith_field (hX : X.Shaped vars.size vars.size)
    (h : X.normalFormWith vars order strategy test = .ok N) :
    N.field.Shaped vars.size vars.size ∧ N.field.homogeneousPart 1 = X.homogeneousPart 1 ∧
      N.field.Supported fun k m => 1 ≤ m.degree ∧ m.degree ≤ order ∧
        (2 ≤ m.degree → Accepts (X.homogeneousPart 1).diagonalEigenvalues test k m) := by
  obtain ⟨-, horder, s, components, hs, hcolumn, rfl⟩ := normalFormWith_eq_ok h
  have hgraded := NormalForm.progress_graded hX (hX.graded_homogeneousPart 1) hs
  have hshaped := NormalForm.progress_shaped hX (hX.homogeneousPart 1) hs
  obtain ⟨column, hok, hlength, hentries⟩ := (hshaped.table.filledTo hgraded.filled).firstColumn
    (show order ≤ order - 1 + 1 by omega)
  rw [hcolumn] at hok
  obtain rfl := Except.ok.inj hok
  refine ⟨hX.weightedSum fun f hf => ?_, ?_, weightedSum_supported X fun f hf => ?_⟩
  · obtain ⟨i, hi⟩ := List.mem_iff_getElem?.1 hf
    exact (hentries i f hi).2
  · obtain ⟨c, fs, rfl⟩ := List.exists_cons_of_length_pos (hlength ▸ horder)
    obtain rfl := (hentries 0 c rfl).1.first rfl
    refine weightedSum_linear hX fun f hf k t ht => ?_
    obtain ⟨i, hi⟩ := List.mem_iff_getElem?.1 hf
    have hdegree := ((hentries (i + 1) f hi).1.graded.supported k t ht).2
    simp [hdegree]
  · obtain ⟨i, hi⟩ := List.mem_iff_getElem?.1 hf
    obtain ⟨hlt, -⟩ := List.getElem?_eq_some_iff.1 hi
    intro k t ht
    have hentry := (hentries i f hi).1
    have hdegree := (hentry.graded.supported k t ht).2
    exact ⟨by omega, by omega, fun htwo => hentry.accepted (by omega) rfl k t ht⟩

variable [CharZero C]

/-- The weights of the seeds and of the sum cancel. -/
theorem weightedSum_seeds (hX : X.Shaped n n) {order : ℕ} {components : List (Tuple C)}
    (hlength : components.length = order)
    (h : ∀ i f, components[i]? = some f → f = X.seed 1 i) :
    weightedSum X components = X.band 1 order := by
  obtain ⟨hshape, hvalue⟩ := weightedSum_value (v := parts 1 X.value) hX fun i f hi => by
    rw [h i f hi]
    exact ⟨hX.seed 1 i, value_seed X 1 i⟩
  have hband : (X.band 1 order).Shaped n n := hX.map fun _ hp => hp.filterTerms _
  refine value_injective hshape hband ?_
  rw [hvalue, hlength, value_band, sum_Ico_eq_sum_range, Nat.add_sub_cancel]
  exact sum_congr rfl fun i _ => by rw [parts, Nat.add_comm]

theorem weightedSum_zeros (hX : X.Shaped n n) (count : ℕ) :
    weightedSum X (List.replicate count (zeros n n)) = zeros n n := by
  obtain ⟨hshape, hvalue⟩ := weightedSum_value (v := 0) hX fun i f hi => by
    obtain rfl := List.eq_of_mem_replicate (List.mem_of_getElem? hi)
    rw [value_zeros, Pi.zero_apply, smul_zero]
    exact ⟨.zeros n n, rfl⟩
  refine value_injective hshape (.zeros n n) ?_
  simp [hvalue, value_zeros]

theorem normalFormWith_of_resonant (hX : X.Shaped vars.size vars.size) (horder : 1 ≤ order)
    (hresonant : X.Resonant order test)
    (htriangular : strategy = .nilpotent → 2 ≤ order →
      (X.homogeneousPart 1).isUpperTriangular = true) :
    ∃ N, X.normalFormWith vars order strategy test = .ok N ∧ N.field = X.band 1 order ∧
      N.generator = zeros vars.size vars.size ∧
      N.family = List.replicate (order - 1) (zeros vars.size vars.size) := by
  obtain ⟨N, hok, hfield, hlength, hseeds, hgenerator, hfamily⟩ :=
    normalFormWith_resonant hX horder hresonant htriangular
  refine ⟨N, hok, ?_, ?_, hfamily⟩
  · rw [hfield, weightedSum_seeds hX hlength hseeds]
  · rw [hgenerator, hfamily, weightedSum_zeros hX]

section Plane

/-- The field `(1 + 2x + y + 3y² + x³, y + x⁴)` with the resonant term `3y²`. -/
def reducedField : Tuple ℚ :=
  ⟨2, [⟨2, [([0, 0], 1), ([0, 1], 1), ([0, 2], 3), ([1, 0], 2), ([3, 0], 1)]⟩,
    ⟨2, [([0, 1], 1), ([4, 0], 1)]⟩]⟩

end Plane

end Tuple

end Exact

end LieNormalForm
