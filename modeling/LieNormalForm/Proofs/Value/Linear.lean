import LieNormalForm.Proofs.Value.Composition

/-!
# Matrices that act on fields

A matrix combines the members of a sequence, row by row. The linear tuple of a matrix combines the
variables, and mixing the components of a tuple combines its values. A combination goes through
every linear map: through substitutions, derivations and the reading of one coefficient.
-/

open MvPolynomial (aeval coeff)

noncomputable section

namespace LieNormalForm

variable {C W : Type} [Weight W] [ExactField C W]

namespace CoeffMatrix

variable {m : CoeffMatrix C} {i : ℕ}

/-- The sequence `M·f`, zero beyond the last row. -/
def combine (m : CoeffMatrix C) (f : Sequence C) : Sequence C := fun i =>
  if i < m.nrows then ∑ j ∈ Finset.range m.ncols, m.entry i j • f j else 0

theorem combine_of_lt (hi : i < m.nrows) (f : Sequence C) :
    m.combine f i = ∑ j ∈ Finset.range m.ncols, m.entry i j • f j := if_pos hi

theorem combine_of_le (hi : m.nrows ≤ i) (f : Sequence C) : m.combine f i = 0 :=
  if_neg (not_lt.2 hi)

theorem map_combine_of_lt {M : Type} [AddCommMonoid M] [Module C M]
    (φ : MvPolynomial ℕ C →ₗ[C] M) (hi : i < m.nrows) (f : Sequence C) :
    φ (m.combine f i) = ∑ j ∈ Finset.range m.ncols, m.entry i j • φ (f j) := by
  rw [combine_of_lt hi, map_sum]
  exact Finset.sum_congr rfl fun j _ => map_smul φ _ _

theorem map_combine (φ : MvPolynomial ℕ C →ₗ[C] MvPolynomial ℕ C) (m : CoeffMatrix C)
    (f : Sequence C) (i : ℕ) : φ (m.combine f i) = m.combine (fun j => φ (f j)) i := by
  by_cases hi : i < m.nrows
  · rw [map_combine_of_lt φ hi, combine_of_lt hi]
  · rw [combine_of_le (not_lt.1 hi), combine_of_le (not_lt.1 hi), map_zero]

theorem aeval_combine (x : Sequence C) (m : CoeffMatrix C) (f : Sequence C) (i : ℕ) :
    aeval x (m.combine f i) = m.combine (fun j => aeval x (f j)) i :=
  map_combine (aeval x).toLinearMap m f i

theorem aeval_combine_X (x : Sequence C) (m : CoeffMatrix C) (i : ℕ) :
    aeval x (m.combine MvPolynomial.X i) = m.combine x i := by
  simp only [aeval_combine, MvPolynomial.aeval_X]

theorem along_combine (w : Sequence C) (m : CoeffMatrix C) (f : Sequence C) (i : ℕ) :
    along w (m.combine f i) = m.combine (fun j => along w (f j)) i :=
  map_combine (along w).toLinearMap m f i

theorem along_combine_X (w : Sequence C) (m : CoeffMatrix C) (i : ℕ) :
    along w (m.combine MvPolynomial.X i) = m.combine w i := by
  simp only [along_combine, along_X]

theorem coeff_combine (s : ℕ →₀ ℕ) (hi : i < m.nrows) (f : Sequence C) :
    coeff s (m.combine f i) = ∑ j ∈ Finset.range m.ncols, m.entry i j * coeff s (f j) :=
  map_combine_of_lt (MvPolynomial.lcoeff C s) hi f

theorem combine_sub (m : CoeffMatrix C) (f g : Sequence C) :
    m.combine (f - g) = m.combine f - m.combine g := by
  funext i
  by_cases hi : i < m.nrows
  · simp only [Pi.sub_apply, combine_of_lt hi, smul_sub, Finset.sum_sub_distrib]
  · simp only [Pi.sub_apply, combine_of_le (not_lt.1 hi), sub_zero]

end CoeffMatrix

namespace Tuple

open CoeffMatrix (combine combine_of_lt combine_of_le)

theorem linearRow_canonical (n : ℕ) (entry : ℕ → C) : (linearRow n entry).Canonical n := by
  unfold linearRow
  induction List.range n using List.reverseRecOn with
  | nil => exact .zero n
  | append_singleton js j ih =>
    rw [List.foldl_append]
    exact ih.add ((Poly.Canonical.coordinate n j).scale _)

theorem mixedRow_canonical {n : ℕ} {ps : List (Poly C)} (hps : ∀ p ∈ ps, p.Canonical n)
    (entry : ℕ → C) : (mixedRow n ps entry).Canonical n := by
  unfold mixedRow
  induction ps using List.reverseRecOn with
  | nil => exact .zero n
  | append_singleton ps p ih =>
    have hrow := ih fun q hq => hps q (List.mem_append_left [p] hq)
    rw [List.zipIdx_append, List.foldl_append, List.zipIdx_singleton, List.foldl_cons,
      List.foldl_nil]
    split
    · exact hrow
    · exact hrow.add ((hps p (List.mem_append_right ps List.mem_cons_self)).scale _)

theorem Shaped.linear (m : CoeffMatrix C) : (linear m).Shaped m.nrows m.ncols := by
  refine ⟨linear_size m, rfl, fun p hp => ?_⟩
  obtain ⟨i, _, rfl⟩ := List.mem_map.1 hp
  exact linearRow_canonical _ _

theorem Shaped.applyMatrix {len n : ℕ} {f : Tuple C} (hf : f.Shaped len n) (m : CoeffMatrix C) :
    (f.applyMatrix m).Shaped m.nrows n := by
  refine ⟨applyMatrix_size f m, hf.nvars_eq, fun p hp => ?_⟩
  obtain ⟨i, _, rfl⟩ := List.mem_map.1 hp
  rw [hf.nvars_eq]
  exact mixedRow_canonical hf.canonical _

theorem value_linearRow (n : ℕ) (entry : ℕ → C) :
    (linearRow n entry).value = ∑ j ∈ Finset.range n, entry j • MvPolynomial.X j := by
  have hrow : ∀ k ≤ n, ((List.range k).foldl (fun row j =>
      row + (Poly.coordinate n j).scale (entry j)) (Poly.zero n)).value =
        ∑ j ∈ Finset.range k, entry j • MvPolynomial.X j := by
    intro k hk
    induction k with
    | zero => rfl
    | succ k ih =>
      rw [List.range_succ, List.foldl_append, List.foldl_cons, List.foldl_nil, Poly.value_add,
        Poly.value_scale, Poly.value_coordinate hk, ih (Nat.le_of_succ_le hk),
        Finset.sum_range_succ]
  exact hrow n le_rfl

/-- An entry that is left out is zero. -/
theorem value_mixedRow (n : ℕ) (ps : List (Poly C)) (entry : ℕ → C) :
    (mixedRow n ps entry).value =
      ∑ j ∈ Finset.range ps.length, entry j • Poly.imageValues ps j := by
  unfold mixedRow
  induction ps using List.reverseRecOn with
  | nil => rfl
  | append_singleton ps p ih =>
    have hold : ∀ j ∈ Finset.range ps.length, entry j • Poly.imageValues (ps ++ [p]) j =
        entry j • Poly.imageValues ps j := by
      intro j hj
      have hlt : j < (ps.map Poly.value).length := by simpa using hj
      rw [Poly.imageValues, Poly.imageValues, List.map_append, List.getD_append _ _ _ _ hlt]
    have hnew : Poly.imageValues (ps ++ [p]) ps.length = p.value := by
      simp [Poly.imageValues]
    rw [List.zipIdx_append, List.foldl_append, List.zipIdx_singleton, List.foldl_cons,
      List.foldl_nil, List.length_append, List.length_singleton, Finset.sum_range_succ,
      Finset.sum_congr rfl hold, ← ih, hnew, Nat.zero_add]
    split
    · rename_i hzero
      rw [(ExactField.isZero_iff _).1 hzero, zero_smul, add_zero]
    · rw [Poly.value_add, Poly.value_scale]

theorem value_linear (m : CoeffMatrix C) : (linear m).value = m.combine MvPolynomial.X := by
  funext i
  by_cases hi : i < m.nrows
  · rw [combine_of_lt hi, ← value_linearRow, value_eq, component, linear,
      List.getD_eq_getElem?_getD, List.getElem?_map, List.getElem?_range hi]
    rfl
  · rw [combine_of_le (not_lt.1 hi), value_of_size_le ((linear_size m).trans_le (not_lt.1 hi))]

theorem value_applyMatrix {f : Tuple C} {m : CoeffMatrix C} (hsize : f.size = m.ncols) :
    (f.applyMatrix m).value = m.combine f.value := by
  funext i
  by_cases hi : i < m.nrows
  · rw [combine_of_lt hi, ← hsize, value_eq, component, applyMatrix, List.getD_eq_getElem?_getD,
      List.getElem?_map, List.getElem?_range hi]
    exact value_mixedRow f.nvars f.components (m.entry i)
  · rw [combine_of_le (not_lt.1 hi),
      value_of_size_le ((applyMatrix_size f m).trans_le (not_lt.1 hi))]

end Tuple

end LieNormalForm

end
