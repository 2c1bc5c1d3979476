import LieNormalForm.Proofs.Jordan.Blocks
import LieNormalForm.Proofs.Jordan.Clusters
import LieNormalForm.Proofs.Reals

/-!
# Jordan bases

The columns of different eigenvalues are put together: they span the whole space, since the
generalized eigenspaces do, and every column is mapped as the Jordan form says. With exact routines
and eigenvalues that are far enough from each other, a basis is found exactly for the matrices whose
eigenvalues have a single eigenvector or a full basis of them.
-/

namespace LieNormalForm

open Module CoeffMatrix

open Classical

variable {C R : Type} [ExactReal R] [ExactComplex C R] {n : ℕ}

section Form

/-- The Jordan form with a given diagonal: a one stands above the diagonal between equal eigenvalues
that have a single eigenvector. -/
noncomputable def jordanForm (A : Matrix (Fin n) (Fin n) C) (d : Fin n → C) :
    Matrix (Fin n) (Fin n) C :=
  Matrix.of fun i j =>
    if i = j then d j
    else if (i : ℕ) + 1 = j ∧ d i = d j ∧ finrank C (End.eigenspace A.toLin' (d j)) = 1 then 1
    else 0

/-- A basis in which a matrix has Jordan form. On the diagonal stand the eigenvalues, one after the
other, each as often as its algebraic multiplicity. -/
structure IsJordanBasis (A S : Matrix (Fin n) (Fin n) C) : Prop where
  invertible : IsUnit S
  form : ∃ (ls : List C) (d : Fin n → C), ls.Nodup ∧ (∀ l, l ∈ ls ↔ A.charpoly.IsRoot l) ∧
    List.ofFn d = ls.flatMap (fun l => List.replicate (A.charpoly.rootMultiplicity l) l) ∧
    S⁻¹ * A * S = jordanForm A d

end Form

section Columns

/-- How a column is mapped, given the column before; each comes with its eigenvalue. -/
def Continues (T : End C (Fin n → C)) (p q : C × (Fin n → C)) : Prop :=
  T q.2 = q.1 • q.2 + if p.1 = q.1 ∧ finrank C (T.eigenspace q.1) = 1 then p.2 else 0

/-- The columns of a list of eigenvalues, each with its eigenvalue. -/
structure Columns (T : End C (Fin n → C)) (ks : List (Cluster C))
    (cols : List (C × (Fin n → C))) : Prop where
  eigenvalues : cols.map Prod.fst = ks.flatMap fun k => List.replicate k.count k.center
  span : ∀ k ∈ ks, T.maxGenEigenspace k.center ≤ Submodule.span C {v | v ∈ cols.map Prod.snd}
  head : ∀ p ∈ cols.head?, T p.2 = p.1 • p.2
  links : cols.IsChain (Continues T)

variable {T : End C (Fin n → C)} {ks : List (Cluster C)} {cols : List (C × (Fin n → C))}

theorem Columns.nil : Columns T [] [] :=
  ⟨rfl, by simp, by simp, .nil⟩

theorem Columns.mem_center (h : Columns T ks cols) {p : C × (Fin n → C)} (hp : p ∈ cols) :
    p.1 ∈ ks.map Cluster.center := by
  have hmem := List.mem_map_of_mem (f := Prod.fst) hp
  rw [h.eigenvalues, List.mem_flatMap] at hmem
  obtain ⟨k, hk, hp⟩ := hmem
  rw [List.eq_of_mem_replicate hp]
  exact List.mem_map_of_mem hk

theorem Columns.cons (h : Columns T ks cols) {k : Cluster C} {vs : List (Fin n → C)}
    (hk : k.center ∉ ks.map Cluster.center) (hblock : Block T k.center vs)
    (hcount : k.count = finrank C (T.maxGenEigenspace k.center)) :
    Columns T (k :: ks) (vs.map (Prod.mk k.center) ++ cols) := by
  have hsnd : (vs.map (Prod.mk k.center) ++ cols).map Prod.snd = vs ++ cols.map Prod.snd := by
    rw [List.map_append, List.map_map]
    exact congrArg (· ++ _) (List.map_id vs)
  refine ⟨?eigenvalues, ?span, ?head, ?links⟩
  case eigenvalues =>
    rw [List.map_append, List.flatMap_cons, h.eigenvalues, List.map_map, hcount, ← hblock.length]
    exact congrArg (· ++ _) List.map_const'
  case span =>
    rw [hsnd]
    refine List.forall_mem_cons.2 ⟨hblock.span.trans (Submodule.span_mono ?_), fun k' hk' =>
      (h.span k' hk').trans (Submodule.span_mono ?_)⟩
    · exact fun v hv => List.mem_append_left _ hv
    · exact fun v hv => List.mem_append_right _ hv
  case head =>
    cases vs with
    | nil => exact h.head
    | cons v vs =>
      rintro p hp
      obtain rfl : (k.center, v) = p := Option.some.inj hp
      exact hblock.head v rfl
  case links =>
    refine List.isChain_append.2 ⟨?_, h.links, fun p hp q hq => ?_⟩
    · rw [List.isChain_map]
      refine hblock.links.imp fun u w huw => ?_
      simpa only [Continues, Links, true_and] using huw
    · -- the chain of one eigenvalue does not go on into the next
      have hp : p.1 = k.center := by
        obtain ⟨v, -, rfl⟩ := List.mem_map.1 (List.mem_of_mem_getLast? hp)
        rfl
      have hq' := h.mem_center (List.mem_of_mem_head? hq)
      have hne : p.1 ≠ q.1 := fun heq => hk (by rwa [← hp, heq])
      rw [Continues, if_neg fun hsame => hne hsame.1, add_zero]
      exact h.head q hq

end Columns

section Clusters

variable [Numeral R] {L : LinearAlgebra C R} {m : CoeffMatrix C} {threshold : R}
  {ks : List (Cluster C)} (hL : L.ExactFor m n threshold) (hrows : m.nrows = n) (hcols : m.ncols = n)
  (hroots : ∀ k ∈ ks, (m.toMatrix n).charpoly.IsRoot k.center)
include hL hrows hcols hroots

theorem LinearAlgebra.clusterColumns_ok (hnodup : (ks.map Cluster.center).Nodup)
    (hcount : ∀ k ∈ ks, k.count = finrank C ((m.toEnd n).maxGenEigenspace k.center))
    (h : ∀ k ∈ ks, finrank C ((m.toEnd n).eigenspace k.center) = 1 ∨
      finrank C ((m.toEnd n).eigenspace k.center) = k.count) :
    ∃ cols : List (C × (Fin n → C)),
      L.clusterColumns m threshold ks = .ok (cols.map fun p => List.ofFn p.2) ∧
      Columns (m.toEnd n) ks cols := by
  induction ks with
  | nil => exact ⟨[], rfl, .nil⟩
  | cons k ks ih =>
    rw [List.forall_mem_cons] at hroots hcount h
    rw [List.map_cons, List.nodup_cons] at hnodup
    obtain ⟨vs, hvs, hblock⟩ := Cluster.columns_ok hL hrows hcols hroots.1 hcount.1 h.1
    obtain ⟨cols, hrest, hcolumns⟩ := ih hroots.2 hnodup.2 hcount.2 h.2
    refine ⟨_, ?_, hcolumns.cons hnodup.1 hblock hcount.1⟩
    simp only [clusterColumns, hvs, hrest, List.map_append, List.map_map, Function.comp_def]

theorem LinearAlgebra.clusterColumns_error {k : Cluster C} (hk : k ∈ ks)
    (hone : finrank C ((m.toEnd n).eigenspace k.center) ≠ 1)
    (hall : finrank C ((m.toEnd n).eigenspace k.center) ≠ k.count) :
    ∃ e, L.clusterColumns m threshold ks = .error e := by
  induction ks with
  | nil => cases hk
  | cons k' ks ih =>
    rw [List.forall_mem_cons] at hroots
    rw [clusterColumns]
    split
    · exact ⟨_, rfl⟩
    · rename_i columns hcolumns
      rcases List.mem_cons.1 hk with rfl | hk
      · obtain ⟨e, he⟩ := Cluster.columns_error hL hrows hcols hroots.1 hone hall
        rw [he] at hcolumns
        cases hcolumns
      · obtain ⟨e, he⟩ := ih hroots.2 hk
        exact ⟨e, by rw [he]⟩

end Clusters

section Assembly

variable {A : Matrix (Fin n) (Fin n) C}

theorem jordanForm_first (d : Fin n → C) {j : Fin n} (hj : (j : ℕ) = 0) (k : Fin n) :
    jordanForm A d k j = if k = j then d j else 0 := by
  rw [jordanForm, Matrix.of_apply]
  split
  · rfl
  · rw [if_neg (by omega)]

theorem jordanForm_next (d : Fin n → C) {i j : Fin n} (hij : (i : ℕ) + 1 = j) (k : Fin n) :
    jordanForm A d k j = (if k = j then d j else 0) +
      if k = i then
        if d i = d j ∧ finrank C (End.eigenspace A.toLin' (d j)) = 1 then 1 else 0
      else 0 := by
  rw [jordanForm, Matrix.of_apply]
  by_cases hk : k = j
  · have hki : k ≠ i := by omega
    rw [if_pos hk, if_pos hk, if_neg hki, add_zero]
  · rw [if_neg hk, if_neg hk, zero_add]
    by_cases hki : k = i
    · subst hki
      simp only [hij, true_and, if_true]
    · rw [if_neg hki, if_neg fun h => hki (Fin.ext (by omega))]

theorem mul_eq_mul_jordanForm {d : Fin n → C} {w : Fin n → Fin n → C}
    (hfirst : ∀ j : Fin n, (j : ℕ) = 0 → A.mulVec (w j) = d j • w j)
    (hnext : ∀ i j : Fin n, (i : ℕ) + 1 = j → A.mulVec (w j) =
      d j • w j + if d i = d j ∧ finrank C (End.eigenspace A.toLin' (d j)) = 1 then w i else 0) :
    A * (Matrix.of w).transpose = (Matrix.of w).transpose * jordanForm A d := by
  ext r j
  have hleft : (A * (Matrix.of w).transpose) r j = A.mulVec (w j) r := rfl
  rw [hleft, Matrix.mul_apply]
  by_cases hj : (j : ℕ) = 0
  · simp [hfirst j hj, jordanForm_first d hj, mul_comm]
  · obtain ⟨i, hij⟩ : ∃ i : Fin n, (i : ℕ) + 1 = j := ⟨⟨j - 1, by omega⟩, Nat.sub_one_add_one hj⟩
    simp only [hnext i j hij, jordanForm_next d hij, mul_add, Finset.sum_add_distrib, mul_ite,
      mul_zero, mul_one, Finset.sum_ite_eq', Finset.mem_univ, if_true, Matrix.transpose_apply,
      Matrix.of_apply, Pi.add_apply, Pi.smul_apply, smul_eq_mul, mul_comm (d j)]
    split <;> rfl

theorem isUnit_of_span {w : Fin n → Fin n → C} (h : Submodule.span C (Set.range w) = ⊤) :
    IsUnit (Matrix.of w).transpose := by
  rw [← Matrix.mulVec_surjective_iff_isUnit, ← Matrix.coe_mulVecLin, ← LinearMap.range_eq_top,
    Matrix.range_mulVecLin]
  exact h

/-- The clusters are the eigenvalues of a matrix with their algebraic multiplicities. -/
structure Eigenvalues (A : Matrix (Fin n) (Fin n) C) (ks : List (Cluster C)) : Prop where
  nodup : (ks.map Cluster.center).Nodup
  roots : ∀ l, l ∈ ks.map Cluster.center ↔ A.charpoly.IsRoot l
  count : ∀ k ∈ ks, k.count = A.charpoly.rootMultiplicity k.center
  total : Cluster.total ks = n

variable {ks : List (Cluster C)} {cols : List (C × (Fin n → C))}

theorem Cluster.total_eq_length (ks : List (Cluster C)) :
    Cluster.total ks = (ks.flatMap fun k => List.replicate k.count k.center).length := by
  induction ks with
  | nil => rfl
  | cons k ks ih =>
    rw [List.flatMap_cons, List.length_append, ← ih, List.length_replicate]
    rfl

theorem Columns.length_eq {T : End C (Fin n → C)} (h : Columns T ks cols) :
    cols.length = Cluster.total ks := by
  rw [Cluster.total_eq_length, ← h.eigenvalues, List.length_map]

theorem range_column (cols : List (C × (Fin n → C))) (hlength : n = cols.length) :
    Set.range (fun j : Fin n => (cols.get (j.cast hlength)).2) = {v | v ∈ cols.map Prod.snd} := by
  ext v
  constructor
  · rintro ⟨j, rfl⟩
    exact List.mem_map_of_mem (List.get_mem _ _)
  · intro hv
    obtain ⟨p, hp, rfl⟩ := List.mem_map.1 hv
    obtain ⟨j, rfl⟩ := List.get_of_mem hp
    exact ⟨j.cast hlength.symm, rfl⟩

variable [IsAlgClosed C] (hks : Eigenvalues A ks)
include hks

theorem Columns.span_eq_top (h : Columns A.toLin' ks cols) :
    Submodule.span C {v | v ∈ cols.map Prod.snd} = ⊤ := by
  refine top_le_iff.1 ((End.iSup_maxGenEigenspace_eq_top A.toLin').ge.trans (iSup_le fun l => ?_))
  by_cases hl : A.charpoly.IsRoot l
  · obtain ⟨k, hk, rfl⟩ := List.mem_map.1 ((hks.roots l).2 hl)
    exact h.span k hk
  · -- there are no generalized eigenvectors of any other number
    have hrank := LinearMap.finrank_maxGenEigenspace_eq A.toLin' l
    rw [Matrix.charpoly_toLin', Polynomial.rootMultiplicity_eq_zero hl,
      Submodule.finrank_eq_zero] at hrank
    rw [hrank]
    exact bot_le

theorem Columns.isJordanBasis (h : Columns A.toLin' ks cols) (hlength : n = cols.length) :
    IsJordanBasis A (Matrix.of fun j : Fin n => (cols.get (j.cast hlength)).2).transpose := by
  have hunit := isUnit_of_span (range_column cols hlength ▸ h.span_eq_top hks)
  have hdiagonal : List.ofFn (fun j : Fin n => (cols.get (j.cast hlength)).1) =
      cols.map Prod.fst :=
    List.ext_getElem (by simp [hlength]) (by simp)
  have hlinks := List.isChain_iff_getElem.1 h.links
  have hmul := mul_eq_mul_jordanForm (A := A) (d := fun j : Fin n => (cols.get (j.cast hlength)).1)
    (w := fun j => (cols.get (j.cast hlength)).2) ?first ?next
  · refine ⟨hunit, ks.map Cluster.center, _, hks.nodup, hks.roots, hdiagonal.trans ?_, ?_⟩
    · rw [h.eigenvalues, List.flatMap_map]
      exact List.flatMap_congr fun k hk => by rw [hks.count k hk]
    · rw [Matrix.mul_assoc, hmul,
        Matrix.nonsing_inv_mul_cancel_left _ _ ((Matrix.isUnit_iff_isUnit_det _).1 hunit)]
  case first =>
    intro j hj
    have hhead : cols.head? = some (cols.get (j.cast hlength)) := by
      rw [List.head?_eq_getElem?, ← hj]
      exact List.getElem?_eq_getElem _
    rw [← Matrix.toLin'_apply]
    exact h.head _ hhead
  case next =>
    intro i j hij
    have hget : cols.get (j.cast hlength) = cols.get ⟨i + 1, by omega⟩ :=
      congrArg cols.get (Fin.ext hij.symm)
    rw [← Matrix.toLin'_apply, hget]
    exact hlinks i (by omega)

end Assembly

section Basis

variable [IsAlgClosed C] [CharZero C] {L : LinearAlgebra C R} {m : CoeffMatrix C}

/-- If different eigenvalues are out of reach, the clusters of an exact spectrum are the eigenvalues
with their multiplicities. -/
theorem LinearAlgebra.ExactFor.eigenvalues {threshold radius : R} (hL : L.ExactFor m n threshold)
    (hreach : ∀ l l', (m.toMatrix n).charpoly.IsRoot l → (m.toMatrix n).charpoly.IsRoot l' →
      (RealNumber.le (Normed.norm (l - l')) radius = true ↔ l = l')) :
    ∃ ls, L.spectrum? m = some ls ∧ Eigenvalues (m.toMatrix n) (Cluster.ofSpectrum radius ls) := by
  obtain ⟨ls, hspectrum, hroots⟩ := hL.spectrum
  have hne := (Matrix.charpoly_monic (m.toMatrix n)).ne_zero
  have hmem : ∀ l, l ∈ ls ↔ (m.toMatrix n).charpoly.IsRoot l := by
    intro l
    rw [← Polynomial.mem_roots hne, ← hroots, Multiset.mem_coe]
  have hexact := Cluster.exact_ofSpectrum fun l hl l' hl' =>
    hreach l l' ((hmem l).1 hl) ((hmem l').1 hl')
  refine ⟨ls, hspectrum, hexact.nodup, fun l => (hexact.mem l).trans (hmem l), fun k hk => ?_, ?_⟩
  · rw [hexact.count k hk, ← Multiset.coe_count, hroots, Polynomial.count_roots]
  · have hcard := congrArg Multiset.card hroots
    rw [Multiset.coe_card, IsAlgClosed.card_roots_eq_natDegree, Matrix.charpoly_natDegree_eq_dim,
      Fintype.card_fin] at hcard
    rw [Cluster.ofSpectrum, Cluster.total_foldl, hcard]
    exact Nat.zero_add n

omit [IsAlgClosed C] [CharZero C] in
theorem Eigenvalues.count_eq_finrank {ks : List (Cluster C)} (hks : Eigenvalues (m.toMatrix n) ks) :
    ∀ k ∈ ks, k.count = finrank C ((m.toEnd n).maxGenEigenspace k.center) := by
  intro k hk
  rw [hks.count k hk, LinearMap.finrank_maxGenEigenspace_eq, toEnd_charpoly]

omit [IsAlgClosed C] [CharZero C] in
theorem ofColumns_toMatrix {cols : List (C × (Fin n → C))} (hlength : n = cols.length) :
    (CoeffMatrix.ofColumns n (cols.map fun p => List.ofFn p.2)).toMatrix n =
      (Matrix.of fun j : Fin n => (cols.get (j.cast hlength)).2).transpose := by
  ext i j
  have hj : (j : ℕ) < cols.length := by omega
  rw [toMatrix, Matrix.of_apply, ofColumns, ofFn_entry _ i.2 (by rw [List.length_map]; exact hj)]
  simp [hj]

omit [IsAlgClosed C] in
theorem isJordanBasis_empty (A S : Matrix (Fin 0) (Fin 0) C) : IsJordanBasis A S :=
  ⟨isUnit_of_subsingleton S, [], Fin.elim0, List.nodup_nil,
    fun l => by simp [Matrix.charpoly_isEmpty], rfl, Subsingleton.elim _ _⟩

variable [Numeral R] {tolerance : R} (hrows : m.nrows = n) (hcols : m.ncols = n)
  (hL : L.ExactFor m n (tolerance * LinearAlgebra.scaleOf m))
  (hreach : ∀ l l', (m.toMatrix n).charpoly.IsRoot l → (m.toMatrix n).charpoly.IsRoot l' →
    (RealNumber.le (Normed.norm (l - l')) (RealNumber.sqrt tolerance * LinearAlgebra.scaleOf m) =
      true ↔ l = l'))
include hrows hcols hL hreach

theorem LinearAlgebra.jordanBasis_ok
    (h : ∀ l, (m.toMatrix n).charpoly.IsRoot l →
      finrank C ((m.toEnd n).eigenspace l) = 1 ∨
        finrank C ((m.toEnd n).eigenspace l) = (m.toMatrix n).charpoly.rootMultiplicity l) :
    ∃ S, L.jordanBasis m tolerance = .ok S ∧ S.nrows = n ∧ S.ncols = n ∧
      IsJordanBasis (m.toMatrix n) (S.toMatrix n) := by
  by_cases hn : n = 0
  · subst hn
    refine ⟨⟨0, 0, []⟩, ?_, rfl, rfl, isJordanBasis_empty _ _⟩
    simp only [jordanBasis, hrows, hcols, ne_eq, not_true_eq_false, if_false, if_true]
  · obtain ⟨ls, hspectrum, hks⟩ := hL.eigenvalues hreach
    have hroots := fun (k : Cluster C) hk => (hks.roots k.center).1 (List.mem_map_of_mem hk)
    obtain ⟨cols, hok, hcolumns⟩ := clusterColumns_ok hL hrows hcols hroots hks.nodup
      hks.count_eq_finrank fun k hk => hks.count k hk ▸ h k.center (hroots k hk)
    have hlength : n = cols.length := by rw [hcolumns.length_eq, hks.total]
    refine ⟨.ofColumns n (cols.map fun p => List.ofFn p.2), ?_, rfl, ?_, ?_⟩
    · simp only [jordanBasis, hrows, hcols, ne_eq, not_true_eq_false, if_false, if_neg hn, hspectrum,
        hok, List.length_map, ← hlength, if_true]
    · rw [ofColumns, ofFn_ncols, List.length_map]
      exact hlength.symm
    · exact ofColumns_toMatrix hlength ▸ hcolumns.isJordanBasis hks hlength

theorem LinearAlgebra.jordanBasis_error {l : C} (hl : (m.toMatrix n).charpoly.IsRoot l)
    (hone : finrank C ((m.toEnd n).eigenspace l) ≠ 1)
    (hall : finrank C ((m.toEnd n).eigenspace l) ≠ (m.toMatrix n).charpoly.rootMultiplicity l) :
    ∃ e, L.jordanBasis m tolerance = .error e := by
  have hn : n ≠ 0 := by
    rintro rfl
    simp [Matrix.charpoly_isEmpty] at hl
  obtain ⟨ls, hspectrum, hks⟩ := hL.eigenvalues hreach
  obtain ⟨k, hk, rfl⟩ := List.mem_map.1 ((hks.roots l).2 hl)
  obtain ⟨e, he⟩ := clusterColumns_error hL hrows hcols
    (fun k hk => (hks.roots k.center).1 (List.mem_map_of_mem hk)) hk hone
    (hks.count k hk ▸ hall)
  refine ⟨e, ?_⟩
  simp only [jordanBasis, hrows, hcols, ne_eq, not_true_eq_false, if_false, if_neg hn, hspectrum, he]

end Basis

/-- Over the complex numbers with exact routines, and if different eigenvalues are further from each
other than the radius of the clusters, a Jordan basis is found exactly for the matrices whose
eigenvalues have a single eigenvector or as many as their multiplicity. -/
theorem LinearAlgebra.jordanBasis_isJordanBasis (L : LinearAlgebra ℂ ℝ) (m : CoeffMatrix ℂ)
    (tolerance : ℝ) (hrows : m.nrows = n) (hcols : m.ncols = n)
    (hL : L.ExactFor m n (tolerance * LinearAlgebra.scaleOf m))
    (hseparate : ∀ l l', (m.toMatrix n).charpoly.IsRoot l → (m.toMatrix n).charpoly.IsRoot l' →
      l ≠ l' → √tolerance * max m.frobenius 1 < ‖l - l'‖) :
    ((∃ S, L.jordanBasis m tolerance = .ok S) ↔ ∀ l, (m.toMatrix n).charpoly.IsRoot l →
      finrank ℂ ((m.toEnd n).eigenspace l) = 1 ∨
        finrank ℂ ((m.toEnd n).eigenspace l) = (m.toMatrix n).charpoly.rootMultiplicity l) ∧
    ∀ S, L.jordanBasis m tolerance = .ok S → S.nrows = n ∧ S.ncols = n ∧
      IsJordanBasis (m.toMatrix n) (S.toMatrix n) := by
  have hreach : ∀ l l', (m.toMatrix n).charpoly.IsRoot l → (m.toMatrix n).charpoly.IsRoot l' →
      (RealNumber.le (Normed.norm (l - l')) (RealNumber.sqrt tolerance * scaleOf m) = true ↔
        l = l') := by
    intro l l' hl hl'
    have hle : RealNumber.le (Normed.norm (l - l')) (RealNumber.sqrt tolerance * scaleOf m) = true ↔
        ‖l - l'‖ ≤ √tolerance * max m.frobenius 1 := decide_eq_true_iff
    rw [hle]
    constructor
    · intro h
      by_contra hne
      exact absurd h (not_le.2 (hseparate l l' hl hl' hne))
    · rintro rfl
      rw [sub_self, norm_zero]
      positivity
  have hgood : (∃ S, L.jordanBasis m tolerance = .ok S) → ∀ l, (m.toMatrix n).charpoly.IsRoot l →
      finrank ℂ ((m.toEnd n).eigenspace l) = 1 ∨
        finrank ℂ ((m.toEnd n).eigenspace l) = (m.toMatrix n).charpoly.rootMultiplicity l := by
    rintro ⟨S, hS⟩ l hl
    by_contra hbad
    rw [not_or] at hbad
    obtain ⟨e, he⟩ := jordanBasis_error hrows hcols hL hreach hl hbad.1 hbad.2
    rw [hS] at he
    cases he
  refine ⟨⟨hgood, fun h => ?_⟩, fun S hS => ?_⟩
  · obtain ⟨S, hS, -⟩ := jordanBasis_ok hrows hcols hL hreach h
    exact ⟨S, hS⟩
  · obtain ⟨S', hS', hbasis⟩ := jordanBasis_ok hrows hcols hL hreach (hgood ⟨S, hS⟩)
    rw [hS, Except.ok.injEq] at hS'
    exact hS' ▸ hbasis

section Example

/-- A chain of two and a further eigenvalue. -/
def chainMatrix : CoeffMatrix ℂ := .ofRows [[0, 7, 0], [0, 0, 0], [0, 0, 12]]

/-- Exact routines for this matrix: its singular values are `12`, `7` and `0`, those of its shift by
`12` are `16`, `9` and `0`, and equations have their least solution. Inverses are not asked for. -/
noncomputable def chainRoutines : LinearAlgebra ℂ ℝ where
  spectrum? _ := some [0, 0, 12]
  singular m :=
    if m.entry 2 2 = 0 then
      { values := [(16, [3 / 5, -4 / 5, 0]), (9, [4 / 5, 3 / 5, 0]), (0, [0, 0, 1])]
        solve? := fun b _ =>
          some [-b.getD 0 0 / 12 - 7 * b.getD 1 0 / 144, -b.getD 1 0 / 12, 0] }
    else
      { values := [(12, [0, 0, 1]), (7, [0, 1, 0]), (0, [1, 0, 0])]
        solve? := fun b _ => some [0, b.getD 0 0 / 7, b.getD 2 0 / 12] }
  inverse? _ := none

theorem chainMatrix_toMatrix : chainMatrix.toMatrix 3 = !![0, 7, 0; 0, 0, 0; 0, 0, 12] := by
  ext i j
  fin_cases i <;> fin_cases j <;> rfl

theorem chainMatrix_shift (l : ℂ) :
    (chainMatrix.shift l).toMatrix 3 = !![-l, 7, 0; 0, -l, 0; 0, 0, 12 - l] := by
  ext i j
  fin_cases i <;> fin_cases j <;>
    simp [toMatrix, shift, ofFn, entry, chainMatrix, CoeffMatrix.ofRows]

theorem chainMatrix_shift_entry (l : ℂ) : (chainMatrix.shift l).entry 2 2 = 12 - l :=
  congrFun (congrFun (chainMatrix_shift l) 2) 2

theorem chainMatrix_charpoly : (chainMatrix.toMatrix 3).charpoly =
    (({0, 0, 12} : Multiset ℂ).map fun l => Polynomial.X - Polynomial.C l).prod := by
  rw [chainMatrix_toMatrix, Matrix.charpoly_of_isUpperTriangular]
  · simp [Fin.prod_univ_three, mul_assoc]
  · intro i j hij
    fin_cases i <;> fin_cases j <;> simp_all

theorem chainMatrix_isRoot {l : ℂ} :
    (chainMatrix.toMatrix 3).charpoly.IsRoot l ↔ l = 0 ∨ l = 12 := by
  rw [← Polynomial.mem_roots (Matrix.charpoly_monic _).ne_zero, chainMatrix_charpoly,
    Polynomial.roots_multiset_prod_X_sub_C]
  simp

theorem chainMatrix_shift_apply (l : ℂ) (v : Fin 3 → ℂ) : (chainMatrix.shift l).toEnd 3 v =
    ![7 * v 1 - l * v 0, -(l * v 1), (12 - l) * v 2] := by
  rw [toEnd_apply, chainMatrix_shift]
  ext i
  fin_cases i <;> simp [Matrix.mulVec, dotProduct, Fin.sum_univ_three]
  ring

theorem chainMatrix_ker_zero :
    LinearMap.ker ((chainMatrix.shift 0).toEnd 3) = Submodule.span ℂ {![1, 0, 0]} := by
  ext v
  rw [LinearMap.mem_ker, chainMatrix_shift_apply, Submodule.mem_span_singleton]
  constructor
  · intro hv
    refine ⟨v 0, ?_⟩
    have h1 := congrFun hv 0
    have h2 := congrFun hv 2
    ext i
    fin_cases i <;> simp_all
  · rintro ⟨c, rfl⟩
    simp

theorem chainMatrix_ker_twelve :
    LinearMap.ker ((chainMatrix.shift 12).toEnd 3) = Submodule.span ℂ {![0, 0, 1]} := by
  ext v
  rw [LinearMap.mem_ker, chainMatrix_shift_apply, Submodule.mem_span_singleton]
  constructor
  · intro hv
    refine ⟨v 2, ?_⟩
    have h0 := congrFun hv 0
    have h1 := congrFun hv 1
    ext i
    fin_cases i <;> simp_all
  · rintro ⟨c, rfl⟩
    simp

theorem chainMatrix_scale : LinearAlgebra.scaleOf chainMatrix ≤ 14 := by
  have hfrobenius : chainMatrix.frobenius ≤ 14 := by
    refine Real.sqrt_le_iff.2 ⟨by norm_num, ?_⟩
    norm_num [entries, column, entry, chainMatrix, CoeffMatrix.ofRows, List.range_succ,
      ComplexNumber.re, ComplexNumber.im]
  exact max_le hfrobenius (by norm_num)

theorem chainRoutines_singular_zero : chainRoutines.singular (chainMatrix.shift 0) =
    ⟨[(12, [0, 0, 1]), (7, [0, 1, 0]), (0, [1, 0, 0])],
      fun b _ => some [0, b.getD 0 0 / 7, b.getD 2 0 / 12]⟩ := by
  refine if_neg ?_
  rw [chainMatrix_shift_entry]
  norm_num

theorem chainRoutines_singular_twelve : chainRoutines.singular (chainMatrix.shift 12) =
    ⟨[(16, [3 / 5, -4 / 5, 0]), (9, [4 / 5, 3 / 5, 0]), (0, [0, 0, 1])],
      fun b _ => some [-b.getD 0 0 / 12 - 7 * b.getD 1 0 / 144, -b.getD 1 0 / 12, 0]⟩ := by
  refine if_pos ?_
  rw [chainMatrix_shift_entry, sub_self]

theorem linearIndependent_get_singleton {v : Fin n → C} (hv : v ≠ 0) :
    LinearIndependent C [v].get :=
  haveI : Subsingleton (Fin [v].length) := inferInstanceAs (Subsingleton (Fin 1))
  .of_subsingleton (0 : Fin 1) hv

theorem Singular.kernel_eq_last {s : Singular ℂ ℝ} {threshold x y : ℝ} {u v w : List ℂ}
    (hvalues : s.values = [(x, u), (y, v), (0, w)]) (hx : threshold < x) (hy : threshold < y)
    (hpos : 0 ≤ threshold) : s.kernel threshold = [w] := by
  have hle : ∀ z : ℝ, RealNumber.le z threshold = decide (z ≤ threshold) := fun _ => rfl
  simp only [kernel, hvalues, hle, List.filter_cons, decide_eq_true_eq, if_neg hx.not_ge,
    if_neg hy.not_ge, if_pos hpos]
  rfl

theorem chainRoutines_exactFor {threshold : ℝ} (hpos : 0 ≤ threshold) (hlt : threshold < 7) :
    chainRoutines.ExactFor chainMatrix 3 threshold := by
  refine ⟨⟨_, rfl, ?spectrum⟩, fun l hl => ?kernel, fun l hl b v hv => ?solve⟩
  case spectrum =>
    rw [chainMatrix_charpoly, Polynomial.roots_multiset_prod_X_sub_C]
    rfl
  case kernel =>
    rcases chainMatrix_isRoot.1 hl with rfl | rfl
    · refine ⟨[![1, 0, 0]], ?_, linearIndependent_get_singleton (by simp), ?_⟩
      · rw [chainRoutines_singular_zero,
          Singular.kernel_eq_last rfl (by linarith) (by linarith) hpos]
        simp
      · rw [chainMatrix_ker_zero, range_get]
        simp
    · refine ⟨[![0, 0, 1]], ?_, linearIndependent_get_singleton (by simp), ?_⟩
      · rw [chainRoutines_singular_twelve,
          Singular.kernel_eq_last rfl (by linarith) (by linarith) hpos]
        simp
      · rw [chainMatrix_ker_twelve, range_get]
        simp
  case solve =>
    subst hv
    simp only [chainMatrix_shift_apply]
    rcases chainMatrix_isRoot.1 hl with rfl | rfl
    · refine ⟨![0, v 1, v 2], ?_, by simp⟩
      rw [chainRoutines_singular_zero]
      simp [List.ofFn_succ]
    · refine ⟨![v 0, v 1, 0], ?_, by simp⟩
      rw [chainRoutines_singular_twelve]
      simp [List.ofFn_succ]
      ring

theorem LinearAlgebra.jordanBasis_isJordanBasis_chain :
    ∃ S, chainRoutines.jordanBasis chainMatrix (1 / 10 ^ 9) = .ok S ∧
      IsJordanBasis (chainMatrix.toMatrix 3) (S.toMatrix 3) := by
  have hscale := chainMatrix_scale
  have hone : 1 ≤ scaleOf chainMatrix := le_max_right _ _
  have hsqrt : √(1 / 10 ^ 9 : ℝ) ≤ 1 / 2 := Real.sqrt_le_iff.2 (by norm_num)
  have hseparate : ∀ l l', (chainMatrix.toMatrix 3).charpoly.IsRoot l →
      (chainMatrix.toMatrix 3).charpoly.IsRoot l' → l ≠ l' →
      √(1 / 10 ^ 9) * max chainMatrix.frobenius 1 < ‖l - l'‖ := by
    intro l l' hl hl' hne
    have hreach : √(1 / 10 ^ 9) * max chainMatrix.frobenius 1 ≤ 1 / 2 * 14 :=
      mul_le_mul hsqrt hscale (zero_le_one.trans hone) (by norm_num)
    refine hreach.trans_lt ?_
    rcases chainMatrix_isRoot.1 hl with rfl | rfl
    · rw [(chainMatrix_isRoot.1 hl').resolve_left hne.symm]
      norm_num
    · rw [(chainMatrix_isRoot.1 hl').resolve_right hne.symm]
      norm_num
  obtain ⟨hiff, hbasis⟩ := jordanBasis_isJordanBasis (n := 3) chainRoutines chainMatrix (1 / 10 ^ 9)
    rfl rfl (chainRoutines_exactFor (by positivity) (by linarith)) hseparate
  have hsingle : ∀ l, (chainMatrix.toMatrix 3).charpoly.IsRoot l →
      finrank ℂ ((chainMatrix.toEnd 3).eigenspace l) = 1 := by
    intro l hl
    rw [eigenspace_eq_ker, ← toEnd_shift (m := chainMatrix) (n := 3) rfl rfl l]
    rcases chainMatrix_isRoot.1 hl with rfl | rfl
    · rw [chainMatrix_ker_zero, finrank_span_singleton (by simp)]
    · rw [chainMatrix_ker_twelve, finrank_span_singleton (by simp)]
  obtain ⟨S, hS⟩ := hiff.2 fun l hl => .inl (hsingle l hl)
  exact ⟨S, hS, (hbasis S hS).2.2⟩

end Example

end LieNormalForm
