import LieNormalForm.Proofs.Jordan.Chain
import LieNormalForm.Proofs.Complex
import LieNormalForm.Jordan.Basis

/-!
# The columns of one eigenvalue

With exact routines the columns of an eigenvalue span its generalized eigenspace, whether they are
a basis of the eigenspace or a chain. In a chain every column is mapped to its multiple and the
column before, elsewhere to its multiple alone.
-/

namespace LieNormalForm

open Module

namespace CoeffMatrix

variable {C W : Type} [Weight W] [ExactField C W]

/-- The square matrix of the entries. -/
def toMatrix (m : CoeffMatrix C) (n : ℕ) : Matrix (Fin n) (Fin n) C :=
  Matrix.of fun i j => m.entry i j

/-- The linear map of a square matrix. -/
def toEnd (m : CoeffMatrix C) (n : ℕ) : End C (Fin n → C) := (m.toMatrix n).toLin'

theorem toEnd_apply (m : CoeffMatrix C) (n : ℕ) (v : Fin n → C) :
    m.toEnd n v = (m.toMatrix n).mulVec v := Matrix.toLin'_apply _ _

theorem toEnd_charpoly (m : CoeffMatrix C) (n : ℕ) :
    (m.toEnd n).charpoly = (m.toMatrix n).charpoly := Matrix.charpoly_toLin' _

theorem toEnd_shift {m : CoeffMatrix C} {n : ℕ} (hrows : m.nrows = n) (hcols : m.ncols = n)
    (c : C) : (m.shift c).toEnd n = m.toEnd n - c • 1 := by
  have hmatrix : (m.shift c).toMatrix n = m.toMatrix n - c • 1 := by
    ext i j
    rw [toMatrix, Matrix.of_apply, shift, ofFn_entry _ (by omega) (by omega), Matrix.sub_apply,
      Matrix.smul_apply, Matrix.one_apply, toMatrix, Matrix.of_apply, smul_eq_mul, mul_comm c]
    simp only [Fin.val_inj]
  rw [toEnd, hmatrix, map_sub, map_smul, Matrix.toLin'_one]
  rfl

end CoeffMatrix

open CoeffMatrix

variable {C R : Type} [ExactReal R] [ExactComplex C R]

namespace LinearAlgebra

/-- The routines are exact for a square matrix: the spectrum has every eigenvalue as often as it is
a root of the characteristic polynomial, and behind a shift by an eigenvalue the singular vectors
below the threshold are a basis of the kernel and every solvable equation is solved. -/
structure ExactFor (L : LinearAlgebra C R) (m : CoeffMatrix C) (n : ℕ) (threshold : R) : Prop where
  spectrum : ∃ ls, L.spectrum? m = some ls ∧ (ls : Multiset C) = (m.toMatrix n).charpoly.roots
  kernel : ∀ l, (m.toMatrix n).charpoly.IsRoot l → ∃ vs : List (Fin n → C),
    (L.singular (m.shift l)).kernel threshold = vs.map List.ofFn ∧ LinearIndependent C vs.get ∧
      Submodule.span C (Set.range vs.get) = LinearMap.ker ((m.shift l).toEnd n)
  solve : ∀ l, (m.toMatrix n).charpoly.IsRoot l → ∀ b v, (m.shift l).toEnd n v = b →
    ∃ w, (L.singular (m.shift l)).solve? (List.ofFn b) threshold = some (List.ofFn w) ∧
      (m.shift l).toEnd n w = b

end LinearAlgebra

section Block

variable {n : ℕ}

/-- How a column is mapped: to its multiple, and within a chain also to the column before. -/
def Links (T : End C (Fin n → C)) (l : C) (u w : Fin n → C) : Prop :=
  T w = l • w + if finrank C (T.eigenspace l) = 1 then u else 0

/-- Columns that span the generalized eigenvectors of an eigenvalue. -/
structure Block (T : End C (Fin n → C)) (l : C) (vs : List (Fin n → C)) : Prop where
  length : vs.length = finrank C (T.maxGenEigenspace l)
  span : T.maxGenEigenspace l ≤ Submodule.span C {v | v ∈ vs}
  head : ∀ v ∈ vs.head?, T v = l • v
  links : vs.IsChain (Links T l)

variable {T : End C (Fin n → C)} {l : C}

theorem range_get (vs : List (Fin n → C)) : Set.range vs.get = {v | v ∈ vs} := by
  ext v
  exact List.mem_iff_get.symm

theorem Block.of_eigenbasis {vs : List (Fin n → C)} (hvs : LinearIndependent C vs.get)
    (hspan : Submodule.span C (Set.range vs.get) = T.eigenspace l)
    (hsame : finrank C (T.eigenspace l) = finrank C (T.maxGenEigenspace l)) : Block T l vs := by
  have hlength : vs.length = finrank C (T.eigenspace l) := by
    rw [← hspan, finrank_span_eq_card hvs, Fintype.card_fin]
  have hmem : ∀ v ∈ vs, T v = l • v := by
    intro v hv
    refine End.mem_eigenspace_iff.1 (hspan ▸ Submodule.subset_span ?_)
    rwa [range_get]
  refine ⟨hlength.trans hsame, ?_, fun v hv => hmem v (List.mem_of_mem_head? hv), ?_⟩
  · rw [← range_get, hspan]
    exact (Submodule.eq_of_le_of_finrank_eq End.eigenspace_le_maxGenEigenspace hsame).ge
  · rw [List.isChain_iff_getElem]
    intro i hi
    by_cases hone : finrank C (T.eigenspace l) = 1
    · omega
    · rw [Links, if_neg hone, add_zero]
      exact hmem _ (List.getElem_mem hi)

theorem Block.of_chain (hgeometric : finrank C (T.eigenspace l) = 1) {v : Fin n → C}
    {vs : List (Fin n → C)} (hv : T.eigenspace l = Submodule.span C {v})
    (hchain : (v :: vs).IsChain fun u w => (T - l • 1) w = u)
    (hlength : (v :: vs).length = finrank C (T.maxGenEigenspace l)) : Block T l (v :: vs) := by
  have hlinks := List.isChain_iff_getElem.1 hchain
  refine ⟨hlength, ?_, ?_, hchain.imp fun u w huw => ?_⟩
  · have hspan := ker_pow_le_span (N := T - l • 1) (v := fun i => (v :: vs).getD i 0)
      (m := (v :: vs).length) (by rw [← eigenspace_eq_ker, hv]; rfl) (fun i hi => ?_) le_rfl
    · rw [maxGenEigenspace_eq_ker_pow hgeometric, ← hlength]
      refine hspan.trans (Submodule.span_mono ?_)
      rintro _ ⟨i, hi, rfl⟩
      have hi : i < (v :: vs).length := hi
      simp only [List.getD_eq_getElem _ _ hi]
      exact List.getElem_mem hi
    · simp only [List.getD_eq_getElem _ _ hi, List.getD_eq_getElem _ _ (Nat.lt_of_succ_lt hi)]
      exact hlinks i hi
  · rintro w hw
    obtain rfl : v = w := Option.some.inj hw
    exact End.mem_eigenspace_iff.1 (hv ▸ Submodule.mem_span_singleton_self v)
  · rw [Links, if_pos hgeometric, ← huw]
    simp

end Block

section Columns

variable {L : LinearAlgebra C R} {m : CoeffMatrix C} {n : ℕ} {threshold : R}
  (hL : L.ExactFor m n threshold) (hrows : m.nrows = n) (hcols : m.ncols = n)
include hL hrows hcols

/-- A chain can be continued as long as the algebraic multiplicity allows. -/
theorem Singular.chain_ok {l : C} (hl : (m.toMatrix n).charpoly.IsRoot l)
    (hgeometric : finrank C ((m.toEnd n).eigenspace l) = 1) {count j : ℕ} (hj : 0 < j)
    (hcount : j + count ≤ finrank C ((m.toEnd n).maxGenEigenspace l)) {v : Fin n → C}
    (hv : v ∈ LinearMap.ker ((m.toEnd n - l • 1) ^ j)) :
    ∃ vs : List (Fin n → C),
      (L.singular (m.shift l)).chain threshold count (List.ofFn v) =
        .ok ((v :: vs).map List.ofFn) ∧
      vs.length = count ∧ (v :: vs).IsChain fun u w => (m.toEnd n - l • 1) w = u := by
  -- whatever solution is taken, it lies in the kernel of the next power
  induction count generalizing j v with
  | zero => exact ⟨[], rfl, rfl, .singleton v⟩
  | succ count ih =>
    obtain ⟨x, hx⟩ := ker_pow_le_range hgeometric (by omega) hv
    obtain ⟨w, hsolve, hw⟩ := hL.solve l hl v x (by rwa [toEnd_shift hrows hcols])
    rw [toEnd_shift hrows hcols] at hw
    have hnext : w ∈ LinearMap.ker ((m.toEnd n - l • 1) ^ (j + 1)) := by
      rw [LinearMap.mem_ker, pow_succ, Module.End.mul_apply, hw]
      exact hv
    obtain ⟨vs, hchain, hlength, hlinks⟩ := ih (Nat.succ_pos j) (by omega) hnext
    refine ⟨w :: vs, ?_, by rw [List.length_cons, hlength], hlinks.cons_cons hw⟩
    simp only [chain, hsolve, hchain]
    rfl

variable [Numeral R] {k : Cluster C} (hroot : (m.toMatrix n).charpoly.IsRoot k.center)
include hroot

theorem Cluster.columns_ok
    (hcount : k.count = finrank C ((m.toEnd n).maxGenEigenspace k.center))
    (h : finrank C ((m.toEnd n).eigenspace k.center) = 1 ∨
      finrank C ((m.toEnd n).eigenspace k.center) = k.count) :
    ∃ vs : List (Fin n → C), k.columns L m threshold = .ok (vs.map List.ofFn) ∧
      Block (m.toEnd n) k.center vs := by
  obtain ⟨vs, hkernel, hvs, hspan⟩ := hL.kernel k.center hroot
  rw [toEnd_shift hrows hcols, ← eigenspace_eq_ker] at hspan
  have hlength : vs.length = finrank C ((m.toEnd n).eigenspace k.center) := by
    rw [← hspan, finrank_span_eq_card hvs, Fintype.card_fin]
  -- a full basis is taken as it is, also where a chain would be possible
  by_cases hsame : vs.length = k.count
  · refine ⟨vs, ?_, .of_eigenbasis hvs hspan (by omega)⟩
    simp only [Cluster.columns, hkernel, List.length_map, if_pos hsame]
  · have hgeometric : finrank C ((m.toEnd n).eigenspace k.center) = 1 := by omega
    obtain ⟨v, rfl⟩ := List.length_eq_one_iff.1 (hlength.trans hgeometric)
    have hv : (m.toEnd n).eigenspace k.center = Submodule.span C {v} := by
      rw [← hspan, range_get]
      simp
    have hpos : 0 < k.count := by
      have hle := Submodule.finrank_mono (R := C)
        (End.eigenspace_le_maxGenEigenspace (f := m.toEnd n) (μ := k.center))
      omega
    have hfirst : v ∈ LinearMap.ker ((m.toEnd n - k.center • 1) ^ 1) := by
      rw [pow_one, ← eigenspace_eq_ker, hv]
      exact Submodule.mem_span_singleton_self v
    have hroom : 1 + (k.count - 1) ≤ finrank C ((m.toEnd n).maxGenEigenspace k.center) := by omega
    obtain ⟨ws, hchain, hws, hlinks⟩ :=
      Singular.chain_ok hL hrows hcols hroot hgeometric Nat.one_pos hroom hfirst
    refine ⟨v :: ws, ?_, .of_chain hgeometric hv hlinks (by rw [List.length_cons]; omega)⟩
    rw [List.map_singleton] at hkernel
    rw [List.length_singleton] at hsame
    simp only [Cluster.columns, hkernel, List.length_singleton, if_neg hsame, hchain]

theorem Cluster.columns_error (hone : finrank C ((m.toEnd n).eigenspace k.center) ≠ 1)
    (hall : finrank C ((m.toEnd n).eigenspace k.center) ≠ k.count) :
    ∃ e, k.columns L m threshold = .error e := by
  obtain ⟨vs, hkernel, hvs, hspan⟩ := hL.kernel k.center hroot
  rw [toEnd_shift hrows hcols, ← eigenspace_eq_ker] at hspan
  have hlength : vs.length = finrank C ((m.toEnd n).eigenspace k.center) := by
    rw [← hspan, finrank_span_eq_card hvs, Fintype.card_fin]
  simp only [Cluster.columns, hkernel, List.length_map, if_neg (hlength.trans_ne hall)]
  split
  · rename_i v hv
    have hsingle := congrArg List.length hv
    rw [List.length_map, hlength] at hsingle
    exact absurd hsingle hone
  · exact ⟨_, rfl⟩

end Columns

end LieNormalForm
