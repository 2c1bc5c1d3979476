import Mathlib

/-!
# Chains of generalized eigenvectors

Where an eigenvalue has a single eigenvector, every generalized eigenvector of less than the full
rank is in the range of `T - μ`, so that a chain which starts at the eigenvector can be continued
up to the algebraic multiplicity, whichever solutions are taken for its links. Such a chain spans
the generalized eigenspace.
-/

namespace LieNormalForm

open Module

variable {K V : Type} [Field K] [AddCommGroup V] [Module K V]

section Rank

variable (N : End K V)

theorem ker_pow_le_ker_pow_succ (k : ℕ) : LinearMap.ker (N ^ k) ≤ LinearMap.ker (N ^ (k + 1)) := by
  intro x hx
  rw [LinearMap.mem_ker] at hx ⊢
  rw [pow_succ', Module.End.mul_apply, hx, map_zero]

variable [FiniteDimensional K V]

/-- Every kernel of a power is that of the power before, met with the range, and once the kernel. -/
theorem finrank_ker_pow_succ (k : ℕ) :
    finrank K (LinearMap.ker (N ^ (k + 1))) =
      finrank K (LinearMap.range N ⊓ LinearMap.ker (N ^ k) : Submodule K V) +
        finrank K (LinearMap.ker N) := by
  have hcomap : LinearMap.ker (N ^ (k + 1)) = (LinearMap.ker (N ^ k)).comap N := by
    ext x
    rw [Submodule.mem_comap, LinearMap.mem_ker, LinearMap.mem_ker, pow_succ, Module.End.mul_apply]
  have hle : LinearMap.ker N ≤ LinearMap.ker (N ^ (k + 1)) := by
    intro x hx
    rw [LinearMap.mem_ker] at hx ⊢
    rw [pow_succ, Module.End.mul_apply, hx, map_zero]
  have hrank := LinearMap.finrank_range_add_finrank_ker (N.domRestrict (LinearMap.ker (N ^ (k + 1))))
  rw [LinearMap.range_domRestrict, LinearMap.ker_domRestrict, hcomap, Submodule.map_comap_eq,
    ← hcomap] at hrank
  rw [← hrank, (Submodule.comapSubtypeEquivOfLe hle).finrank_eq]

/-- The kernels of the powers stop growing at the first one that the range does not contain. -/
theorem ker_pow_le_of_not_le_range (hker : finrank K (LinearMap.ker N) = 1) {k : ℕ}
    (h : ¬LinearMap.ker (N ^ k) ≤ LinearMap.range N) (j : ℕ) :
    LinearMap.ker (N ^ j) ≤ LinearMap.ker (N ^ k) := by
  have hlt : (LinearMap.range N ⊓ LinearMap.ker (N ^ k) : Submodule K V) < LinearMap.ker (N ^ k) :=
    inf_lt_right.2 h
  have hrank := finrank_ker_pow_succ N k
  rw [hker] at hrank
  have hsame : LinearMap.ker (N ^ k) = LinearMap.ker (N ^ (k + 1)) :=
    Submodule.eq_of_le_of_finrank_le (ker_pow_le_ker_pow_succ N k)
      (hrank.trans_le (Submodule.finrank_lt_finrank_of_lt hlt))
  rcases Nat.le_total j k with hjk | hkj
  · exact monotone_nat_of_le_succ (ker_pow_le_ker_pow_succ N) hjk
  · obtain ⟨i, rfl⟩ := Nat.exists_eq_add_of_le hkj
    exact (Module.End.ker_pow_constant hsame i).ge

theorem finrank_ker_pow_le (hker : finrank K (LinearMap.ker N) = 1) (k : ℕ) :
    finrank K (LinearMap.ker (N ^ k)) ≤ k := by
  induction k with
  | zero => simp [Module.End.one_eq_id]
  | succ k ih =>
    rw [finrank_ker_pow_succ, hker]
    exact Nat.succ_le_succ ((Submodule.finrank_mono inf_le_right).trans ih)

end Rank

section Eigenvalue

variable {T : End K V} {μ : K}

theorem eigenspace_eq_ker : T.eigenspace μ = LinearMap.ker (T - μ • 1) :=
  End.eigenspace_def

/-- The first links of a chain span the kernels of the powers. -/
theorem ker_pow_le_span {N : End K V} {v : ℕ → V} {m : ℕ}
    (hker : LinearMap.ker N ≤ Submodule.span K {v 0})
    (hlink : ∀ i, i + 1 < m → N (v (i + 1)) = v i) {k : ℕ} (hk : k ≤ m) :
    LinearMap.ker (N ^ k) ≤ Submodule.span K (v '' Set.Iio k) := by
  induction k with
  | zero => simp [Module.End.one_eq_id]
  | succ k ih =>
    intro x hx
    have hfirst : v 0 ∈ Submodule.span K (v '' Set.Iio (k + 1)) :=
      Submodule.subset_span ⟨0, Nat.zero_lt_succ k, rfl⟩
    have hlift : Submodule.span K (v '' Set.Iio k) ≤
        (Submodule.span K (v '' Set.Iio (k + 1))).map N := by
      rw [Submodule.span_le]
      rintro _ ⟨i, hi, rfl⟩
      have hi : i < k := hi
      exact ⟨v (i + 1), Submodule.subset_span ⟨i + 1, Nat.succ_lt_succ hi, rfl⟩,
        hlink i (by omega)⟩
    have himage : N x ∈ LinearMap.ker (N ^ k) := by
      rw [LinearMap.mem_ker] at hx ⊢
      rwa [pow_succ, Module.End.mul_apply] at hx
    obtain ⟨u, hu, hux⟩ := hlift (ih (by omega) himage)
    have hrest : x - u ∈ LinearMap.ker N := by rw [LinearMap.mem_ker, map_sub, hux, sub_self]
    have hspan := Submodule.span_le.2 (Set.singleton_subset_iff.2 hfirst) (hker hrest)
    rw [← sub_add_cancel x u]
    exact Submodule.add_mem _ hspan hu

variable [FiniteDimensional K V]

/-- Below the algebraic multiplicity there is a solution for the next link. -/
theorem ker_pow_le_range (hgeometric : finrank K (T.eigenspace μ) = 1) {k : ℕ}
    (hk : k < finrank K (T.maxGenEigenspace μ)) :
    LinearMap.ker ((T - μ • 1) ^ k) ≤ LinearMap.range (T - μ • 1) := by
  rw [eigenspace_eq_ker] at hgeometric
  by_contra h
  have hall : T.maxGenEigenspace μ ≤ LinearMap.ker ((T - μ • 1) ^ k) := by
    intro x hx
    obtain ⟨j, hj⟩ := (End.mem_maxGenEigenspace T μ x).1 hx
    exact ker_pow_le_of_not_le_range _ hgeometric h j hj
  have hle := (Submodule.finrank_mono hall).trans (finrank_ker_pow_le _ hgeometric k)
  omega

theorem finrank_ker_pow (hgeometric : finrank K (T.eigenspace μ) = 1) {k : ℕ}
    (hk : k ≤ finrank K (T.maxGenEigenspace μ)) :
    finrank K (LinearMap.ker ((T - μ • 1) ^ k)) = k := by
  induction k with
  | zero => simp [Module.End.one_eq_id]
  | succ k ih =>
    rw [finrank_ker_pow_succ, inf_eq_right.2 (ker_pow_le_range hgeometric hk), ih (by omega),
      ← eigenspace_eq_ker, hgeometric]

/-- The power at the algebraic multiplicity has all generalized eigenvectors in its kernel. -/
theorem maxGenEigenspace_eq_ker_pow (hgeometric : finrank K (T.eigenspace μ) = 1) :
    T.maxGenEigenspace μ = LinearMap.ker ((T - μ • 1) ^ finrank K (T.maxGenEigenspace μ)) := by
  have hle : LinearMap.ker ((T - μ • 1) ^ finrank K (T.maxGenEigenspace μ)) ≤
      T.maxGenEigenspace μ :=
    fun x hx => (End.mem_maxGenEigenspace T μ x).2 ⟨_, hx⟩
  exact (Submodule.eq_of_le_of_finrank_eq hle (finrank_ker_pow hgeometric le_rfl)).symm

end Eigenvalue

end LieNormalForm
