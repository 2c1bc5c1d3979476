import LieNormalForm.Proofs.Support.Generator
import LieNormalForm.Proofs.Support.NormalForm

/-!
# Raising the order

A larger order leaves what was found for a smaller one, bit by bit and in every arithmetic, and
adds terms of higher degree. The tables of all calculations are filled by diagonals, and no
diagonal looks at a later one: not the recurrence, nor the homological equation, whose right side
comes from the diagonal that it is solved on. So the calculation for the smaller order is the
beginning of the one for the larger order, and it reads no terms above the degrees that it makes.
-/

namespace LieNormalForm

section NormalForm

variable {C W : Type} [Weight W] [Coefficient C W] {X Y linear : Tuple C} {eigenvalues : List C}
  {strategy : FormStrategy} {test : ZeroTest C} {r : ℕ}

namespace NormalForm

/-- The sums cut off at degree `r`, and the terms that make them up. -/
def truncate (N : NormalForm C) (r : ℕ) : NormalForm C :=
  ⟨N.field.truncate r, N.generator.truncate r, N.eigenvalues, N.family.take (r - 1),
    N.components.take r⟩

theorem advance_prefix {n : ℕ} {s s' : Progress C}
    (h : advance X linear eigenvalues strategy test n s = .ok s') :
    s'.table.Agree (n + 1) s.table ∧ s.family <+: s'.family := by
  obtain ⟨t, forcing, split, hrows, -, -, rfl⟩ := advance_eq_ok h
  have hseeded : (s.table.insert 0 (n + 1) (X.seed 1 (n + 1))).Agree (n + 1) s.table :=
    (GradedTable.Agree.refl (n + 1) s.table).insert (by omega) _
  have hfilled := hseeded.fillRows (Nat.le_refl (n + 1)) (Nat.le_succ n) hrows
  exact ⟨hfilled.insert (by omega) _, List.prefix_append _ _⟩

/-- The first steps of a longer run are a shorter run. -/
theorem progress_prefix {count k : ℕ} {s : Progress C}
    (h : progress X linear eigenvalues strategy test (count + k) = .ok s) :
    ∃ s₀, progress X linear eigenvalues strategy test count = .ok s₀ ∧
      s.table.Agree (count + 1) s₀.table ∧ s₀.family <+: s.family := by
  induction k generalizing s with
  | zero => exact ⟨s, h, .refl _ _, List.prefix_refl _⟩
  | succ k ih =>
    rw [← Nat.add_assoc, progress] at h
    split at h
    · cases h
    · rename_i s₁ h₁
      obtain ⟨s₀, hprogress, htable, hfamily⟩ := ih h₁
      obtain ⟨htable₁, hfamily₁⟩ := advance_prefix h
      exact ⟨s₀, hprogress, (htable₁.mono (by omega)).trans htable, hfamily.trans hfamily₁⟩

theorem progress_congr (hXY : X.band 1 r = Y.band 1 r) {count : ℕ} (hcount : count + 1 ≤ r) :
    progress X linear eigenvalues strategy test count =
      progress Y linear eigenvalues strategy test count := by
  have hseed : ∀ m ≤ count, X.seed 1 m = Y.seed 1 m :=
    fun m hm => Tuple.seed_eq_of_band hXY (by omega) (by omega)
  induction count with
  | zero => rw [progress, progress, hseed 0 (Nat.le_refl 0)]
  | succ n ih =>
    have hprefix := ih (by omega) fun m hm => hseed m (by omega)
    simp only [progress, hprefix, advance, hseed (n + 1) (Nat.le_refl _)]

theorem Progress.Graded.truncate_generator {n N : ℕ} {s : Progress C}
    (hs : s.Graded X n N eigenvalues test) (like : Tuple C) (r : ℕ) :
    (Tuple.weightedSum like s.family).truncate r =
      Tuple.weightedSum like (s.family.take (r - 1)) := by
  have hcount : r + 1 - 2 = r - 1 := by omega
  rw [← hcount]
  refine Tuple.truncate_weightedSum fun i w hw => ?_
  have hdegree := (hs.family i w hw).supported
  rw [Nat.zero_add] at hdegree
  exact hdegree.imp fun _ _ hm => hm.2

end NormalForm

namespace Tuple

variable {vars : Variables}

theorem normalFormWith_truncate (hX : X.WellFormed) (hr : 1 ≤ r) {s : ℕ} (hrs : r ≤ s)
    {N : NormalForm C} (h : X.normalFormWith vars s strategy test = .ok N) :
    X.normalFormWith vars r strategy test = .ok (N.truncate r) := by
  obtain ⟨hcheck, -, p, components, hp, hcolumn, rfl⟩ := normalFormWith_eq_ok h
  obtain ⟨hsize, hvars⟩ := checkField_ok hcheck
  have hX := hX.shaped hsize hvars
  obtain ⟨k, rfl⟩ := Nat.exists_eq_add_of_le hrs
  have hsteps : r + k - 1 = r - 1 + k := by omega
  rw [hsteps] at hp
  obtain ⟨p₀, hp₀, htable, hfamily⟩ := NormalForm.progress_prefix hp
  have hgraded := NormalForm.progress_graded hX (hX.graded_homogeneousPart 1) hp
  -- the components are the first column of the table
  have hfilled : p.table.FilledTo
      (fun i m e => e.Graded vars.size vars.size (i + m + 1)) (r + k) 0 := by
    have hdiagonals : r + k = r - 1 + k + 1 := by omega
    rw [hdiagonals]
    exact hgraded.filled.imp fun _ _ _ _ he => he.graded
  obtain ⟨column, hok, hcolumn₀, hfield⟩ := firstColumn_truncate X hfilled
    (htable.mono (by omega)) (Nat.le_add_right r k) (Nat.add_sub_cancel r 1)
  rw [hcolumn] at hok
  obtain rfl := Except.ok.inj hok
  -- the family is a list of its own
  have htake : p₀.family = p.family.take (r - 1) := by
    rw [← NormalForm.progress_family hp₀]
    exact List.prefix_iff_eq_take.1 hfamily
  have hgenerator := hgraded.truncate_generator X r
  have hnot : ¬r < 1 := by omega
  simp only [normalFormWith, hcheck, hnot, if_false, hp₀, hcolumn₀, htake, NormalForm.truncate,
    hfield, hgenerator]

theorem normalFormWith_congr (hXY : X.band 1 r = Y.band 1 r) :
    X.normalFormWith vars r strategy test = Y.normalFormWith vars r strategy test := by
  have hsize := size_eq_of_band hXY
  have hnvars := nvars_eq_of_band hXY
  unfold normalFormWith
  rw [checkField_congr hsize hnvars]
  split
  · rfl
  · by_cases hr : r < 1
    · rw [if_pos hr, if_pos hr]
    · have hlinear : X.homogeneousPart 1 = Y.homogeneousPart 1 := by
        rw [← homogeneousPart_band (Nat.le_refl 1) (Nat.le_of_not_lt hr) X, hXY,
          homogeneousPart_band (Nat.le_refl 1) (Nat.le_of_not_lt hr) Y]
      simp only [if_neg hr, hlinear, NormalForm.progress_congr hXY (show r - 1 + 1 ≤ r by omega),
        weightedSum, hsize, hnvars]

end Tuple

end NormalForm

namespace Tuple

variable {C R : Type} [RealNumber R] [Coefficient C R] [Normed C R]

section Doubles

/-- The map `(x + y² + x³, y + x²)` over doubles. -/
def doubleMap : Tuple FloatComplex :=
  ⟨2, [⟨2, [([0, 2], ⟨1, 0⟩), ([1, 0], ⟨1, 0⟩), ([3, 0], ⟨1, 0⟩)]⟩,
    ⟨2, [([0, 1], ⟨1, 0⟩), ([2, 0], ⟨1, 0⟩)]⟩]⟩

/-- The generator `(y², 0.1·x² + x²y)` over doubles. -/
def doubleGenerator : Tuple FloatComplex :=
  ⟨2, [⟨2, [([0, 2], ⟨1, 0⟩)]⟩, ⟨2, [([2, 0], ⟨0.1, 0⟩), ([2, 1], ⟨1, 0⟩)]⟩]⟩

end Doubles

end Tuple

end LieNormalForm
