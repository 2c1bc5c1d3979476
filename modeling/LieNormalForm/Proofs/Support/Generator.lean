import LieNormalForm.Proofs.Support.Action
import LieNormalForm.Generator

/-!
# Orders and degrees in the generator of a map

For every arithmetic of the coefficients, rounded or not: the table of a map finds all its
entries, and entry `Y[i,k]` has degree `i + k + 2`. A larger order adds diagonals to the table and
leaves those that are there; whether the map is near the identity is seen from its terms of
degree zero and one.
-/

namespace LieNormalForm

namespace NearIdentity

section Table

variable {C W : Type} [Weight W] [Coefficient C W] {n N r : ℕ} {t : GradedTable (Tuple C)}
  {f g : Tuple C}

abbrev EntryGraded (n i k : ℕ) (e : Tuple C) : Prop := e.Graded n n (i + k + 2)

theorem subtractTerms_graded {i k : ℕ}
    (hcolumn : ∀ j ≤ i, ∃ w, t.get j 0 = .ok w ∧ w.Graded n n (j + 2))
    (hbefore : ∀ j ≤ i, ∃ g, t.get j k = .ok g ∧ g.Graded n n (j + k + 2)) {count : ℕ}
    (hcount : count ≤ i + 1) {e : Tuple C} (he : e.Graded n n (i + 1 + k + 2)) :
    ∃ e', subtractTerms t i k count e = .ok e' ∧ e'.Graded n n (i + 1 + k + 2) := by
  induction count with
  | zero => exact ⟨e, rfl, he⟩
  | succ j ih =>
    obtain ⟨e', hok, he'⟩ := ih (by omega)
    obtain ⟨w, hdirection, hw⟩ := hcolumn (i - j) (by omega)
    obtain ⟨g, hterm, hg⟩ := hbefore j (by omega)
    simp only [subtractTerms, hok, hdirection, hterm]
    split
    · exact ⟨e', rfl, he'⟩
    · have hderivative := hg.directionalDerivative (d := i + 1 + k + 2) (by omega) hw
      exact ⟨_, rfl, he'.sub (hderivative.scaleWeight _)⟩

theorem recurrence_graded :
    GradedTable.Continues (EntryGraded n) (recurrence : GradedTable (Tuple C) → _) := by
  intro N i t hi ht
  obtain ⟨above, habove, hentry⟩ := ht i (N - (i + 1) + 1) (by omega)
  have hdegree : i + (N - (i + 1) + 1) + 2 = i + 1 + (N - (i + 1)) + 2 := by omega
  rw [EntryGraded, hdegree] at hentry
  obtain ⟨e, hok, he⟩ := subtractTerms_graded (fun j hj => ht j 0 (by omega))
    (fun j hj => ht j (N - (i + 1)) (by omega)) (Nat.le_refl _) hentry
  refine ⟨e, ?_, he⟩
  simp only [recurrence, habove, hok]

theorem table_continues {spec : ℕ → ℕ → Tuple C → Prop} (hseed : ∀ N, spec 0 N (seed f N))
    (hnext : GradedTable.Continues spec recurrence) (count : ℕ) :
    ∃ t, table f count = .ok t ∧ t.FilledTo spec count 0 := by
  induction count with
  | zero => exact ⟨.empty, rfl, .empty _⟩
  | succ N ih =>
    obtain ⟨t, htable, ht⟩ := ih
    obtain ⟨t', hrows, ht'⟩ := ht.diagonal hnext (hseed N)
    refine ⟨t', ?_, ht'.next⟩
    simp only [table, htable, hrows]

theorem table_graded (hf : f.Framed n n) (count : ℕ) :
    ∃ t, table f count = .ok t ∧ t.FilledTo (EntryGraded n) count 0 := by
  refine table_continues (fun N => ?_) recurrence_graded count
  rw [EntryGraded, Nat.zero_add]
  exact (hf.graded_seed 2 N).scaleWeight _

theorem table_agree {count k : ℕ} (h : table f (count + k) = .ok t) :
    ∃ t₀, table f count = .ok t₀ ∧ t.Agree count t₀ := by
  induction k generalizing t with
  | zero => exact ⟨t, h, .refl count t⟩
  | succ k ih =>
    rw [← Nat.add_assoc, table] at h
    split at h
    · cases h
    · rename_i t₁ h₁
      obtain ⟨t₀, htable, hagree⟩ := ih h₁
      exact ⟨t₀, htable, (hagree.insert (by omega) _).fillRows (by omega) (Nat.le_refl _) h⟩

theorem table_congr (hfg : f.truncate r = g.truncate r) {count : ℕ} (hcount : count + 1 ≤ r) :
    table f count = table g count := by
  induction count with
  | zero => rfl
  | succ N ih =>
    have hseed : seed f N = seed g N := by
      rw [seed, seed, Tuple.seed_eq_of_truncate hfg (by omega)]
    rw [table, table, ih (by omega), hseed]

end Table

end NearIdentity

namespace Tuple

variable {C R : Type} [RealNumber R] [Coefficient C R] [Normed C R] {f g : Tuple C}
  {vars : Variables} {r s : ℕ}

theorem checkNearIdentity_truncate (hr : 1 ≤ r) (f : Tuple C) :
    (f.truncate r).checkNearIdentity = f.checkNearIdentity := by
  have hsize : (f.truncate r).size = f.size := map_size f _
  have hnvars : (f.truncate r).nvars = f.nvars := rfl
  rw [checkNearIdentity, checkNearIdentity, linearPart_truncate hr,
    homogeneousPart_truncate (Nat.zero_le r), hsize, hnvars]

theorem generatorOf_truncate (hf : f.WellFormed) (hrs : r ≤ s) :
    f.generatorOf vars r = (f.generatorOf vars s).map fun U => U.truncate r := by
  unfold generatorOf
  cases hcheck : f.checkField vars .nearIdentityMap with
  | error e => rfl
  | ok _ =>
    obtain ⟨hsize, hnvars⟩ := checkField_ok hcheck
    cases f.checkNearIdentity with
    | error e => rfl
    | ok _ =>
      have hcount := Nat.sub_le_sub_right hrs 1
      obtain ⟨k, hk⟩ := Nat.exists_eq_add_of_le hcount
      obtain ⟨t, htable, ht⟩ := NearIdentity.table_graded (hf.shaped hsize hnvars).framed (s - 1)
      obtain ⟨t₀, htable₀, hagree⟩ := NearIdentity.table_agree (hk ▸ htable)
      obtain ⟨column, hcolumn, hcolumn₀, hsum⟩ :=
        firstColumn_truncate f (r := r) ht hagree hcount (by omega)
      simp only [htable, hcolumn, htable₀, hcolumn₀, Except.map, hsum]

theorem generatorOf_congr (hr : 1 ≤ r) (hfg : f.truncate r = g.truncate r) :
    f.generatorOf vars r = g.generatorOf vars r := by
  have hsize := size_eq_of_truncate hfg
  have hnvars := nvars_eq_of_truncate hfg
  have hnear : f.checkNearIdentity = g.checkNearIdentity := by
    rw [← checkNearIdentity_truncate hr f, hfg, checkNearIdentity_truncate hr g]
  have htable : NearIdentity.table f (r - 1) = NearIdentity.table g (r - 1) :=
    NearIdentity.table_congr hfg (by omega)
  simp only [generatorOf, checkField_congr hsize hnvars, hnear, htable, weightedSum, hsize, hnvars]

end Tuple

end LieNormalForm
