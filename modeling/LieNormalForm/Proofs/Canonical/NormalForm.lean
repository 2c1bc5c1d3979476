import LieNormalForm.Proofs.Homological.Order
import LieNormalForm.Proofs.Support.NormalForm

/-!
# The shape of normal forms

Solvers make canonical splits of a canonical right side, and the recurrence makes canonical
entries of canonical ones. So everything that comes out of a normal form is canonical, in any
arithmetic and with any zero test.
-/

namespace LieNormalForm

variable {C W : Type} [Coefficient C W]

namespace Split

variable {eigenvalues : List C} {test : ZeroTest C} {n k : ℕ} {linear forcing : Tuple C}

namespace Sweep

/-- All tuples of a sweep are canonical. -/
structure Shaped (n : ℕ) (s : Sweep C) : Prop where
  residual : s.residual.Shaped n n
  remainder : s.remainder.Shaped n n
  generator : s.generator.Shaped n n

variable {s s' : Sweep C}

theorem start_shaped (hF : forcing.Shaped n n) : (start forcing).Shaped n := by
  have hzeros : (Tuple.zeros forcing.size forcing.nvars : Tuple C).Shaped n n := by
    rw [hF.size_eq, hF.nvars_eq]
    exact .zeros n n
  exact ⟨hF, hzeros, hzeros⟩

theorem handle_shaped (hA : linear.Shaped n n) {t : Term C}
    (ht : t ∈ (s.residual.component k).terms)
    (h : handle linear eigenvalues test s k t = .ok s') (hs : s.Shaped n) : s'.Shaped n := by
  have hm := (hs.residual.component k).terms.length t ht
  unfold handle at h
  split at h
  · cases h
  · cases h
    exact ⟨hs.residual.modify k fun _ hp => hp.removeTerm t.1,
      hs.remainder.modify k fun _ hp => hp.addTerm hm t.2, hs.generator⟩
  · cases h
    have hterm : ∀ c : C, (Poly.ofTerm t.1 c).Canonical n := fun c => hm ▸ .ofTerm t.1 c
    rw [eliminate, hs.residual.size_eq]
    exact ⟨(hs.residual.sub (hA.bracket (.single n k (hterm _)))).modify k
        fun _ hp => hp.removeTerm t.1,
      hs.remainder, hs.generator.modify k fun _ hp => hp.addTerm hm _⟩

end Sweep

theorem nilpotent_shaped (hA : linear.Shaped n n) (hF : forcing.Shaped n n) {s : Split C}
    (h : nilpotent linear eigenvalues forcing test = .ok s) :
    s.remainder.Shaped n n ∧ s.generator.Shaped n n := by
  unfold nilpotent nilpotentWithin at h
  split at h
  · cases h
  · split at h
    · split at h
      · cases h
      · rename_i sweep hsweep
        cases h
        have hshaped := Sweep.components_keeps
          (fun _ _ _ _ ht hhandle hs => Sweep.handle_shaped hA ht hhandle hs) hsweep
          (Sweep.start_shaped hF)
        exact ⟨hshaped.remainder, hshaped.generator⟩
    · cases h

theorem semisimple_shaped (hF : forcing.Shaped n n) {s : Split C}
    (h : semisimple linear eigenvalues forcing test = .ok s) :
    s.remainder.Shaped n n ∧ s.generator.Shaped n n := by
  cases hcheck : checkInput linear eigenvalues forcing with
  | error e => simp [semisimple, hcheck] at h
  | ok _ =>
    have hsorting := semisimple_sorting test hF.size_eq hF.nvars_eq hcheck
    rw [h] at hsorting
    exact Sorts.shaped hF hsorting

end Split

theorem FormStrategy.solve_shaped {strategy : FormStrategy} {eigenvalues : List C}
    {test : ZeroTest C} {n : ℕ} {linear forcing : Tuple C} (hA : linear.Shaped n n)
    (hF : forcing.Shaped n n) {s : Split C}
    (h : strategy.solve linear eigenvalues forcing test = .ok s) :
    s.remainder.Shaped n n ∧ s.generator.Shaped n n := by
  cases strategy with
  | semisimple => exact Split.semisimple_shaped hF h
  | nilpotent => exact Split.nilpotent_shaped hA hF h


section NormalForm

variable [Weight W]

namespace NormalForm

/-- All entries of the table and all generator terms are canonical. -/
structure Progress.Shaped (n : ℕ) (s : Progress C) : Prop where
  table : s.table.Holds (Tuple.Shaped n n)
  family : ∀ w ∈ s.family, w.Shaped n n

variable {field linear : Tuple C} {n N : ℕ} {eigenvalues : List C} {strategy : FormStrategy}
  {test : ZeroTest C} {s s' : Progress C}

theorem start_shaped (hX : field.Shaped n n) :
    (⟨GradedTable.empty.insert 0 0 (field.seed 1 0), []⟩ : Progress C).Shaped n :=
  ⟨(GradedTable.Holds.empty _).insert 0 0 (hX.seed 1 0), by simp⟩

theorem Progress.Shaped.recurrence (hs : s.Shaped n) {t : GradedTable (Tuple C)}
    (ht : t.Holds (Tuple.Shaped n n)) {i m : ℕ} {e : Tuple C}
    (h : LieOperator.bracket.recurrence s.family t i m = .ok e) : e.Shaped n n :=
  LieOperator.recurrence_holds
    (fun w hw _ _ _ he hg => he.add (((hs.family w hw).bracket hg).scaleWeight _)) ht h

theorem Progress.Shaped.fillRows (hs : s.Shaped n) (hX : field.Shaped n n)
    {t : GradedTable (Tuple C)} {count : ℕ}
    (h : GradedTable.fillRows (LieOperator.bracket.recurrence s.family) (N + 1) count
      (s.table.insert 0 (N + 1) (field.seed 1 (N + 1))) = .ok t) : t.Holds (Tuple.Shaped n n) :=
  (hs.table.insert 0 (N + 1) (hX.seed 1 (N + 1))).fillRows
    (fun _ _ _ _ ht he => hs.recurrence ht he) h

theorem advance_shaped (hX : field.Shaped n n) (hA : linear.Shaped n n)
    (h : advance field linear eigenvalues strategy test N s = .ok s') (hs : s.Shaped n) :
    s'.Shaped n := by
  obtain ⟨t, forcing, split, hrows, hforcing, hsolve, rfl⟩ := advance_eq_ok h
  have ht := hs.fillRows hX hrows
  obtain ⟨hremainder, hgenerator⟩ :=
    FormStrategy.solve_shaped hA (hs.recurrence ht hforcing) hsolve
  refine ⟨ht.insert (N + 1) 0 hremainder, fun w hw => ?_⟩
  rcases List.mem_append.1 hw with hw | hw
  · exact hs.family w hw
  · rwa [List.mem_singleton.1 hw]

theorem progress_shaped (hX : field.Shaped n n) (hA : linear.Shaped n n) {count : ℕ}
    (h : progress field linear eigenvalues strategy test count = .ok s) : s.Shaped n :=
  progress_keeps (P := fun _ s => s.Shaped n) (start_shaped hX)
    (fun _ _ _ h hs => advance_shaped hX hA h hs) h

end NormalForm

end NormalForm

end LieNormalForm
