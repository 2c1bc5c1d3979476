import LieNormalForm.Proofs.Jordan.Members
import LieNormalForm.Double.Complex
import LieNormalForm.Jordan.Basis
import LieNormalForm.Numeric.Solver

/-!
# As many columns as rows

Every cluster that is not refused has as many columns as members, and every eigenvalue is a member
of one cluster. So the columns that are collected are as many as the matrix has rows, whatever the
routines answer, as long as a spectrum has the length of the matrix.
-/

namespace LieNormalForm

namespace Cluster

variable {C R : Type} [Coefficient C R] [RealNumber R] [Normed C R]

theorem ofSpectrum_count_pos (radius : R) (spectrum : List C) :
    ∀ k ∈ ofSpectrum radius spectrum, 0 < k.count := by
  induction spectrum using List.reverseRecOn with
  | nil => simp [ofSpectrum]
  | append_singleton spectrum l ih =>
    rw [ofSpectrum, List.foldl_append, List.foldl_cons, List.foldl_nil]
    exact addTo_count_pos ih

theorem total_ofSpectrum (radius : R) (spectrum : List C) :
    total (ofSpectrum radius spectrum) = spectrum.length := by
  rw [ofSpectrum, total_foldl]
  exact Nat.zero_add _

end Cluster

section Columns

variable {C R : Type} [RealNumber R] [Numeral R] [ComplexNumber C R] {L : LinearAlgebra C R}
  {m : CoeffMatrix C} {threshold : R}

/-- The error says that there are too many or too few columns. -/
def Error.CountsColumns (e : Error) : Prop :=
  ∃ found dimension, e = .jordan (.columnCount found dimension)

omit [RealNumber R] [Numeral R] [ComplexNumber C R] in
theorem Singular.chain_error {s : Singular C R} {count : ℕ} {v : List C} {e : Error}
    (h : s.chain threshold count v = .error e) : ¬e.CountsColumns := by
  induction count generalizing v with
  | zero => cases h
  | succ count ih =>
    rw [chain] at h
    split at h
    · cases h
      rintro ⟨found, dimension, he⟩
      cases he
    · split at h
      · rename_i hrest
        cases h
        exact ih hrest
      · cases h

theorem Cluster.columns_error_cause {k : Cluster C} {e : Error}
    (h : k.columns L m threshold = .error e) : ¬e.CountsColumns := by
  unfold Cluster.columns at h
  dsimp only at h
  split at h
  · cases h
  · split at h
    · exact Singular.chain_error h
    · cases h
      rintro ⟨found, dimension, he⟩
      cases he

theorem LinearAlgebra.clusterColumns_error_cause {ks : List (Cluster C)} {e : Error}
    (h : L.clusterColumns m threshold ks = .error e) : ¬e.CountsColumns := by
  induction ks with
  | nil => cases h
  | cons k ks ih =>
    rw [clusterColumns] at h
    split at h
    · rename_i hcolumns
      cases h
      exact Cluster.columns_error_cause hcolumns
    · split at h
      · rename_i hrest
        cases h
        exact ih hrest
      · cases h

theorem LinearAlgebra.clusterColumns_length {ks : List (Cluster C)} {columns : List (List C)}
    (hks : ∀ k ∈ ks, 0 < k.count) (h : L.clusterColumns m threshold ks = .ok columns) :
    columns.length = Cluster.total ks := by
  induction ks generalizing columns with
  | nil =>
    cases h
    rfl
  | cons k ks ih =>
    obtain ⟨hk, hks⟩ := List.forall_mem_cons.1 hks
    rw [clusterColumns] at h
    split at h
    · cases h
    · rename_i first hfirst
      split at h
      · cases h
      · rename_i rest hrest
        cases h
        rw [List.length_append, Cluster.columns_length hk hfirst, ih hks hrest]
        rfl

end Columns

namespace LinearAlgebra

section Basis

variable {C R : Type} [RealNumber R] [Numeral R] [ComplexNumber C R]

/-- The columns of the clusters of the spectrum. -/
def collectColumns (L : LinearAlgebra C R) (m : CoeffMatrix C) (tolerance : R) :
    Except Error (List (List C)) :=
  match L.spectrum? m with
  | none => .error (.jordan .noConvergence)
  | some spectrum =>
    L.clusterColumns m (tolerance * scaleOf m)
      (Cluster.ofSpectrum (RealNumber.sqrt tolerance * scaleOf m) spectrum)

variable {L : LinearAlgebra C R} {m : CoeffMatrix C} {tolerance : R}

theorem jordanBasis_eq (hsquare : m.ncols = m.nrows) (hm : m.nrows ≠ 0) :
    L.jordanBasis m tolerance =
      match L.collectColumns m tolerance with
      | .error e => .error e
      | .ok columns =>
        if columns.length = m.nrows then .ok (.ofColumns m.nrows columns)
        else .error (.jordan (.columnCount columns.length m.nrows)) := by
  simp only [jordanBasis, hsquare, ne_eq, not_true_eq_false, if_false, if_neg hm, collectColumns]
  cases L.spectrum? m <;> rfl

theorem jordanBasis_empty (hsquare : m.ncols = m.nrows) (hm : m.nrows = 0) :
    L.jordanBasis m tolerance = .ok (.ofColumns m.nrows []) := by
  simp only [jordanBasis, hsquare, hm, ne_eq, not_true_eq_false, if_false, if_true]
  rfl

theorem jordanBasis_dimensions {S : CoeffMatrix C} (h : L.jordanBasis m tolerance = .ok S) :
    S.nrows = m.nrows ∧ S.ncols = m.nrows := by
  by_cases hsquare : m.ncols = m.nrows
  · by_cases hm : m.nrows = 0
    · rw [jordanBasis_empty hsquare hm] at h
      cases h
      exact ⟨rfl, hm.symm⟩
    · rw [jordanBasis_eq hsquare hm] at h
      split at h
      · cases h
      · split at h
        · rename_i hlength
          cases h
          exact ⟨rfl, hlength⟩
        · cases h
  · simp [jordanBasis, hsquare] at h

theorem collectColumns_error {e : Error} (h : L.collectColumns m tolerance = .error e) :
    ¬e.CountsColumns := by
  rw [collectColumns] at h
  split at h
  · cases h
    rintro ⟨found, dimension, he⟩
    cases he
  · exact clusterColumns_error_cause h

theorem collectColumns_length {columns : List (List C)}
    (hspectrum : ∀ ls, L.spectrum? m = some ls → ls.length = m.nrows)
    (h : L.collectColumns m tolerance = .ok columns) : columns.length = m.nrows := by
  rw [collectColumns] at h
  split at h
  · cases h
  · rename_i ls hls
    rw [clusterColumns_length (Cluster.ofSpectrum_count_pos _ ls) h, Cluster.total_ofSpectrum,
      hspectrum ls hls]

variable (L tolerance) in
/-- Whatever the routines answer, a Jordan basis is refused before its columns are counted, or it
has as many columns as the matrix has rows. The clusters have all eigenvalues as members, and
without rounding their centres are the means of the members. -/
theorem jordanBasis_collects (hsquare : m.ncols = m.nrows)
    (hspectrum : ∀ ls, L.spectrum? m = some ls → ls.length = m.nrows) :
    (∀ (radius : R) (ls : List C), Cluster.total (Cluster.ofSpectrum radius ls) = ls.length) ∧
    (∀ e, L.jordanBasis m tolerance = .error e →
      ¬e.CountsColumns ∧ L.collectColumns m tolerance = .error e) ∧
    (∀ S, L.jordanBasis m tolerance = .ok S → ∃ columns, columns.length = m.nrows ∧
      S = .ofColumns m.nrows columns ∧
      (m.nrows ≠ 0 → L.collectColumns m tolerance = .ok columns)) ∧
    ∀ {K W : Type} [RealNumber W] [ExactField K W] [CharZero K] [Normed K W] (radius : W)
      (ls : List K), (Cluster.groups radius ls).flatten.Perm ls ∧
        Cluster.ofSpectrum radius ls =
          (Cluster.groups radius ls).map fun g => ⟨g.sum / g.length, g.length⟩ := by
  refine ⟨Cluster.total_ofSpectrum, fun e he => ?_, fun S hS => ?_, fun radius ls => ?_⟩
  · have hm : m.nrows ≠ 0 := by
      intro hm
      rw [jordanBasis_empty hsquare hm] at he
      cases he
    rw [jordanBasis_eq hsquare hm] at he
    split at he
    · rename_i hcollect
      cases he
      exact ⟨collectColumns_error hcollect, hcollect⟩
    · rename_i columns hcollect
      rw [if_pos (collectColumns_length hspectrum hcollect)] at he
      cases he
  · by_cases hm : m.nrows = 0
    · rw [jordanBasis_empty hsquare hm] at hS
      cases hS
      exact ⟨[], hm.symm, rfl, fun hne => absurd hm hne⟩
    · rw [jordanBasis_eq hsquare hm] at hS
      split at hS
      · cases hS
      · rename_i columns hcollect
        have hlength := collectColumns_length hspectrum hcollect
        rw [if_pos hlength] at hS
        cases hS
        exact ⟨columns, hlength, rfl, fun _ => hcollect⟩
  · refine ⟨Cluster.groups_flatten radius ls, ?_⟩
    rw [Cluster.ofSpectrum_eq_map_groups]
    refine List.map_congr_left fun g _ => ?_
    rw [← Cluster.ofMembers_center, ← Cluster.ofMembers_count]

end Basis

section Doubles

/-- A matrix over doubles with a single eigenvector. -/
def shearMatrix : CoeffMatrix FloatComplex :=
  .ofRows [[.ofReal 2, .ofReal 1], [.ofReal (-1), .ofReal 0]]

theorem jordanBasis_collects_doubles :
    (∀ e, numeric.jordanBasis shearMatrix 1e-9 = .error e →
      ¬e.CountsColumns ∧ numeric.collectColumns shearMatrix 1e-9 = .error e) ∧
    (∀ S, numeric.jordanBasis shearMatrix 1e-9 = .ok S → ∃ columns, columns.length = 2 ∧
      S = .ofColumns 2 columns ∧ numeric.collectColumns shearMatrix 1e-9 = .ok columns) ∧
    Cluster.ofSpectrum (1 : ℚ) [0, 5, 1] = [⟨([0, 1] : List ℚ).sum / 2, 2⟩, ⟨5, 1⟩] := by
  obtain ⟨-, herror, hok, hmean⟩ := jordanBasis_collects numeric 1e-9
    (m := shearMatrix) rfl fun _ => numeric_spectrum_length
  refine ⟨herror, fun S hS => ?_, ?_⟩
  · obtain ⟨columns, hlength, hS, hcollect⟩ := hok S hS
    exact ⟨columns, hlength, hS, hcollect (by decide)⟩
  · rw [(hmean (1 : ℚ) ([0, 5, 1] : List ℚ)).2]
    decide +kernel

end Doubles

end LinearAlgebra

end LieNormalForm
