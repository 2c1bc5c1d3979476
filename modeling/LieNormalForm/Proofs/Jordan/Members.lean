import LieNormalForm.Proofs.Exact
import LieNormalForm.Jordan.Cluster

/-!
# The members of clusters

Clusters keep a centre and a number only. Here the eigenvalues themselves are kept: the same
eigenvalues join, so that every cluster is the one its members make when they are taken one after
the other. No eigenvalue is lost or counted twice, and without rounding a centre is the mean.
-/

namespace LieNormalForm

namespace Cluster

section Run

variable {C R : Type} [Coefficient C R]

/-- The cluster that eigenvalues make one after the other. -/
def ofMembers : List C → Cluster C
  | [] => ⟨0, 0⟩
  | l :: ls => ls.foldl absorb ⟨l, 1⟩

theorem ofMembers_concat {ls : List C} (hls : ls ≠ []) (l : C) :
    ofMembers (ls ++ [l]) = (ofMembers ls).absorb l := by
  cases ls with
  | nil => exact absurd rfl hls
  | cons m ls => simp only [ofMembers, List.cons_append, List.foldl_append, List.foldl_cons,
      List.foldl_nil]

theorem ofMembers_count (ls : List C) : (ofMembers ls).count = ls.length := by
  induction ls using List.reverseRecOn with
  | nil => rfl
  | append_singleton ls l ih =>
    cases ls with
    | nil => rfl
    | cons m ls =>
      rw [ofMembers_concat (List.cons_ne_nil m ls), absorb, ih, List.length_append,
        List.length_singleton]

variable [RealNumber R] [Normed C R]

/-- Puts an eigenvalue into the first group that makes a cluster in reach. -/
def join (radius : R) (l : C) : List (List C) → List (List C)
  | [] => [[l]]
  | g :: gs =>
    if RealNumber.le (Normed.norm ((ofMembers g).center - l)) radius then (g ++ [l]) :: gs
    else g :: join radius l gs

/-- The members of the clusters of a spectrum, taken in its order. -/
def groups (radius : R) (spectrum : List C) : List (List C) :=
  spectrum.foldl (fun gs l => join radius l gs) []

variable {radius : R} {l : C} {gs : List (List C)}

theorem groups_concat (radius : R) (spectrum : List C) (l : C) :
    groups radius (spectrum ++ [l]) = join radius l (groups radius spectrum) := by
  rw [groups, List.foldl_append, List.foldl_cons, List.foldl_nil, groups]

/-- An eigenvalue joins the first group in reach, or it opens a group behind all others. -/
theorem join_cases (radius : R) (l : C) (gs : List (List C)) :
    (∃ before g after, gs = before ++ g :: after ∧
      RealNumber.le (Normed.norm ((ofMembers g).center - l)) radius = true ∧
      join radius l gs = before ++ (g ++ [l]) :: after) ∨
    ((∀ g ∈ gs, ¬RealNumber.le (Normed.norm ((ofMembers g).center - l)) radius = true) ∧
      join radius l gs = gs ++ [[l]]) := by
  induction gs with
  | nil => exact .inr ⟨by simp, rfl⟩
  | cons g gs ih =>
    rw [join]
    split
    · rename_i hreach
      exact .inl ⟨[], g, gs, rfl, hreach, rfl⟩
    · rename_i hreach
      obtain ⟨before, h, after, rfl, hh, hjoin⟩ | ⟨hout, hjoin⟩ := ih
      · exact .inl ⟨g :: before, h, after, rfl, hh, congrArg (g :: ·) hjoin⟩
      · exact .inr ⟨List.forall_mem_cons.2 ⟨hreach, hout⟩, congrArg (g :: ·) hjoin⟩

theorem prefix_join (radius : R) (l : C) {i : ℕ} {g : List C} (hg : gs[i]? = some g) :
    ∃ g', (join radius l gs)[i]? = some g' ∧ g <+: g' := by
  induction gs generalizing i with
  | nil => cases hg
  | cons h gs ih =>
    rw [join]
    cases i with
    | zero =>
      cases hg
      split
      · exact ⟨_, rfl, List.prefix_append g [l]⟩
      · exact ⟨_, rfl, List.prefix_refl g⟩
    | succ i =>
      split
      · exact ⟨g, hg, List.prefix_refl g⟩
      · exact ih hg

/-- Groups keep their place and their members when further eigenvalues come. -/
theorem prefix_groups (radius : R) (done rest : List C) {i : ℕ} {g : List C}
    (hg : (groups radius done)[i]? = some g) :
    ∃ g', (groups radius (done ++ rest))[i]? = some g' ∧ g <+: g' := by
  induction rest using List.reverseRecOn with
  | nil => exact ⟨g, by rwa [List.append_nil], List.prefix_refl g⟩
  | append_singleton rest l ih =>
    obtain ⟨g', hg', hstart⟩ := ih
    rw [← List.append_assoc, groups_concat]
    obtain ⟨g'', hg'', hstart'⟩ := prefix_join radius l hg'
    exact ⟨g'', hg'', hstart.trans hstart'⟩

theorem length_groups_le (radius : R) (done rest : List C) :
    (groups radius done).length ≤ (groups radius (done ++ rest)).length := by
  by_contra hlt
  rw [not_le] at hlt
  obtain ⟨g, hg, -⟩ := prefix_groups radius done rest (List.getElem?_eq_getElem hlt)
  rw [List.getElem?_eq_none le_rfl] at hg
  cases hg

theorem join_ne_nil (h : ∀ g ∈ gs, g ≠ []) : ∀ g ∈ join radius l gs, g ≠ [] := by
  induction gs with
  | nil => simp [join]
  | cons g gs ih =>
    obtain ⟨hg, hgs⟩ := List.forall_mem_cons.1 h
    rw [join]
    split
    · exact List.forall_mem_cons.2 ⟨by simp, hgs⟩
    · exact List.forall_mem_cons.2 ⟨hg, ih hgs⟩

theorem join_flatten (radius : R) (l : C) (gs : List (List C)) :
    (join radius l gs).flatten.Perm (gs.flatten ++ [l]) := by
  induction gs with
  | nil => exact .refl _
  | cons g gs ih =>
    rw [join]
    split
    · rw [List.flatten_cons, List.flatten_cons, List.append_assoc, List.append_assoc]
      exact List.perm_append_comm.append_left g
    · rw [List.flatten_cons, List.flatten_cons, List.append_assoc]
      exact ih.append_left g

theorem map_join (h : ∀ g ∈ gs, g ≠ []) :
    (join radius l gs).map ofMembers = addTo radius l (gs.map ofMembers) := by
  induction gs with
  | nil => rfl
  | cons g gs ih =>
    obtain ⟨hg, hgs⟩ := List.forall_mem_cons.1 h
    rw [join, List.map_cons, addTo]
    split
    · rw [List.map_cons, ofMembers_concat hg]
    · rw [List.map_cons, ih hgs]

theorem groups_ne_nil (radius : R) (spectrum : List C) : ∀ g ∈ groups radius spectrum, g ≠ [] := by
  induction spectrum using List.reverseRecOn with
  | nil => simp [groups]
  | append_singleton spectrum l ih => exact groups_concat radius spectrum l ▸ join_ne_nil ih

/-- Every eigenvalue is a member of one cluster. -/
theorem groups_flatten (radius : R) (spectrum : List C) :
    (groups radius spectrum).flatten.Perm spectrum := by
  induction spectrum using List.reverseRecOn with
  | nil => exact .refl _
  | append_singleton spectrum l ih =>
    rw [groups_concat]
    exact (join_flatten radius l _).trans (ih.append_right [l])

/-- The clusters are those that the groups make. -/
theorem ofSpectrum_eq_map_groups (radius : R) (spectrum : List C) :
    ofSpectrum radius spectrum = (groups radius spectrum).map ofMembers := by
  induction spectrum using List.reverseRecOn with
  | nil => rfl
  | append_singleton spectrum l ih =>
    rw [groups_concat, map_join (groups_ne_nil radius spectrum), ← ih, ofSpectrum,
      List.foldl_append, List.foldl_cons, List.foldl_nil, ofSpectrum]

end Run

section Mean

variable {C W : Type} [Weight W] [ExactField C W] [CharZero C]

/-- Without rounding a centre that moves with every new member is the mean of all of them. -/
theorem ofMembers_center (ls : List C) : (ofMembers ls).center = ls.sum / ls.length := by
  induction ls using List.reverseRecOn with
  | nil => simp [ofMembers]
  | append_singleton ls l ih =>
    cases ls with
    | nil => simp [ofMembers]
    | cons m ls =>
      have hlength : ((m :: ls).length : C) ≠ 0 := Nat.cast_ne_zero.2 (Nat.succ_ne_zero _)
      rw [ofMembers_concat (List.cons_ne_nil m ls), absorb, ExactField.divNat_eq,
        ExactField.mulNat_eq, ih, ofMembers_count, div_mul_cancel₀ _ hlength, List.sum_append,
        List.sum_singleton, List.length_append, List.length_singleton]

end Mean

end Cluster

end LieNormalForm
