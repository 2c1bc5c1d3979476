import LieNormalForm.Scalar

/-!
# Clusters of eigenvalues

A multiple eigenvalue is computed as several close ones. Eigenvalues are taken one by one:
each joins the first cluster whose centre is not further away than the radius, and the centre
moves to the mean; otherwise it opens a cluster of its own.
-/

namespace LieNormalForm

/-- A mean of eigenvalues, and how many there are. -/
structure Cluster (C : Type) where
  center : C
  count : Nat
deriving DecidableEq

namespace Cluster

variable {C R : Type} [Coefficient C R]

/-- The cluster with one more eigenvalue. -/
def absorb (k : Cluster C) (l : C) : Cluster C :=
  ⟨Coefficient.divNat (Coefficient.mulNat k.center k.count + l) (k.count + 1), k.count + 1⟩

variable [RealNumber R] [Normed C R]

/-- Puts an eigenvalue into the first cluster in reach. -/
def addTo (radius : R) (l : C) : List (Cluster C) → List (Cluster C)
  | [] => [⟨l, 1⟩]
  | k :: ks =>
    if RealNumber.le (Normed.norm (k.center - l)) radius then k.absorb l :: ks
    else k :: addTo radius l ks

/-- The clusters of a spectrum, taken in its order. -/
def ofSpectrum (radius : R) (spectrum : List C) : List (Cluster C) :=
  spectrum.foldl (fun ks l => addTo radius l ks) []

/-- The number of eigenvalues in all clusters. -/
def total (ks : List (Cluster C)) : Nat := ks.foldr (fun k sum => k.count + sum) 0

theorem total_addTo (radius : R) (l : C) (ks : List (Cluster C)) :
    total (addTo radius l ks) = total ks + 1 := by
  induction ks with
  | nil => rfl
  | cons k ks ih =>
    simp only [addTo]
    split
    · simp only [total, List.foldr_cons, absorb]
      omega
    · simp only [total, List.foldr_cons] at ih ⊢
      omega

theorem addTo_count_pos {radius : R} {l : C} {ks : List (Cluster C)}
    (h : ∀ k ∈ ks, 0 < k.count) : ∀ k ∈ addTo radius l ks, 0 < k.count := by
  induction ks with
  | nil => simp [addTo]
  | cons k ks ih =>
    simp only [addTo]
    split
    · intro k' hk'
      rcases List.mem_cons.1 hk' with rfl | hk'
      · simp [absorb]
      · exact h k' (List.mem_cons_of_mem _ hk')
    · intro k' hk'
      rcases List.mem_cons.1 hk' with rfl | hk'
      · exact h k' (List.mem_cons_self ..)
      · exact ih (fun k'' hk'' => h k'' (List.mem_cons_of_mem _ hk'')) k' hk'

theorem total_foldl (radius : R) (spectrum : List C) (ks : List (Cluster C)) :
    total (spectrum.foldl (fun ks l => addTo radius l ks) ks) = total ks + spectrum.length := by
  induction spectrum generalizing ks with
  | nil => rfl
  | cons l ls ih =>
    rw [List.foldl_cons, ih, total_addTo, List.length_cons]
    omega

end Cluster

end LieNormalForm
