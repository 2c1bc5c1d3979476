import LieNormalForm.Proofs.Support.Series
import LieNormalForm.Proofs.Support.Solver
import LieNormalForm.Double.Complex
import LieNormalForm.NormalForm

/-!
# Degrees and divisors in a normal form

For every arithmetic of the coefficients, rounded or not: term `i` of a normal form is
homogeneous of degree `i + 1` and resonant from degree two on, and term `i` of the generator is
homogeneous of degree `i + 2` without resonant terms. The table of the loop carries the degrees
along its diagonals, and the solver sees to the rest.
-/

namespace LieNormalForm

variable {C W : Type} [Weight W] [Coefficient C W]

namespace NormalForm

/-- What an entry of the table looks like: the first row holds the seeds, the first column below
them the terms of the normal form. -/
structure Entry (field : Tuple C) (n : ℕ) (eigenvalues : List C) (test : ZeroTest C) (i m : ℕ)
    (e : Tuple C) : Prop where
  graded : e.Graded n n (i + m + 1)
  first : i = 0 → e = field.seed 1 m
  accepted : 1 ≤ i → m = 0 → e.Supported (Accepts eigenvalues test)

/-- What is known after `N` steps. -/
structure Progress.Graded (field : Tuple C) (n N : ℕ) (eigenvalues : List C) (test : ZeroTest C)
    (s : Progress C) : Prop where
  filled : s.table.FilledTo (Entry field n eigenvalues test) (N + 1) 0
  length : s.family.length = N
  family : LieOperator.GradedFamily n 0 s.family
  rejected : ∀ w ∈ s.family, w.Supported (Rejects eigenvalues test)

variable {field linear : Tuple C} {n N : ℕ} {eigenvalues : List C} {strategy : FormStrategy}
  {test : ZeroTest C} {s s' : Progress C}

theorem seed_entry (hX : field.Shaped n n) (m : ℕ) :
    Entry field n eigenvalues test 0 m (field.seed 1 m) := by
  refine ⟨?_, fun _ => rfl, fun h => absurd h (by omega)⟩
  rw [Nat.zero_add]
  exact hX.graded_seed 1 m

theorem start_graded (eigenvalues : List C) (test : ZeroTest C) (hX : field.Shaped n n) :
    (⟨GradedTable.empty.insert 0 0 (field.seed 1 0), []⟩ : Progress C).Graded field n 0
      eigenvalues test := by
  have hempty := GradedTable.FilledTo.empty (Entry field n eigenvalues test)
  refine ⟨(hempty.insert (Nat.le_refl 0) (seed_entry hX 0)).next, rfl, fun k w hk => ?_, by simp⟩
  cases hk

theorem Progress.Graded.recurrence (hs : s.Graded field n N eigenvalues test)
    {t : GradedTable (Tuple C)} {i : ℕ} (hi : i ≤ N)
    (ht : t.FilledTo (Entry field n eigenvalues test) (N + 1) (i + 1)) :
    ∃ e, LieOperator.bracket.recurrence s.family t i (N + 1 - (i + 1)) = .ok e ∧
      e.Graded n n (N + 1 + 1) :=
  LieOperator.recurrence_graded (fun _ => rfl) (ht.imp fun _ _ _ _ he => he.graded) (by omega)
    hs.family

theorem Progress.Graded.row (hs : s.Graded field n N eigenvalues test)
    {t : GradedTable (Tuple C)} {i : ℕ} (hi : i < N)
    (ht : t.FilledTo (Entry field n eigenvalues test) (N + 1) (i + 1)) :
    ∃ e, LieOperator.bracket.recurrence s.family t i (N + 1 - (i + 1)) = .ok e ∧
      Entry field n eigenvalues test (i + 1) (N + 1 - (i + 1)) e := by
  obtain ⟨e, hok, he⟩ := hs.recurrence (Nat.le_of_lt hi) ht
  refine ⟨e, hok, ?_, fun h => absurd h (by omega), fun _ hcolumn => absurd hcolumn (by omega)⟩
  rwa [show i + 1 + (N + 1 - (i + 1)) + 1 = N + 1 + 1 by omega]

theorem Progress.Graded.extend (hs : s.Graded field n N eigenvalues test)
    {t : GradedTable (Tuple C)}
    (ht : t.FilledTo (Entry field n eigenvalues test) (N + 1) (N + 1)) {split : Split C}
    (hsplit : split.Graded n (N + 2) eigenvalues test) :
    (⟨t.insert (N + 1) 0 split.remainder, s.family ++ [split.generator]⟩ : Progress C).Graded
      field n (N + 1) eigenvalues test := by
  have hentry : Entry field n eigenvalues test (N + 1) (N + 1 - (N + 1)) split.remainder := by
    rw [Nat.sub_self]
    exact ⟨hsplit.remainder, fun h => absurd h (by omega), fun _ _ => hsplit.accepted⟩
  have hfilled := ht.insert (Nat.le_refl _) hentry
  rw [Nat.sub_self] at hfilled
  refine ⟨hfilled.next, ?_, forall_getElem?_concat hs.family ?_, ?_⟩
  · rw [List.length_append, hs.length, List.length_singleton]
  · rw [hs.length, Nat.zero_add]
    exact hsplit.generator
  · intro w hw
    rcases List.mem_append.1 hw with hw | hw
    · exact hs.rejected w hw
    · rw [List.mem_singleton.1 hw]
      exact hsplit.rejected

/-- The next diagonal up to its first column, and the right side of the homological equation for
the next generator term; which strategy is to solve it does not matter. -/
theorem Progress.Graded.forcing (hX : field.Shaped n n) (hs : s.Graded field n N eigenvalues test) :
    ∃ t forcing, GradedTable.fillRows (LieOperator.bracket.recurrence s.family) (N + 1) N
        (s.table.insert 0 (N + 1) (field.seed 1 (N + 1))) = .ok t ∧
      LieOperator.bracket.recurrence s.family t N 0 = .ok forcing ∧
      t.FilledTo (Entry field n eigenvalues test) (N + 1) (N + 1) ∧ forcing.Graded n n (N + 2) := by
  have hseeded : (s.table.insert 0 (N + 1) (field.seed 1 (N + 1))).FilledTo
      (Entry field n eigenvalues test) (N + 1) 1 :=
    hs.filled.insert (Nat.zero_le _) (seed_entry hX (N + 1))
  obtain ⟨t, hrows, ht⟩ := hseeded.fillRows (fun i hi t' ht' => hs.row hi ht') (Nat.le_succ N)
  obtain ⟨forcing, hforcing, hF⟩ := hs.recurrence (Nat.le_refl N) ht
  rw [Nat.sub_self] at hforcing
  exact ⟨t, forcing, hrows, hforcing, ht, hF⟩

theorem advance_graded (hX : field.Shaped n n) (hA : linear.Graded n n 1)
    (h : advance field linear eigenvalues strategy test N s = .ok s')
    (hs : s.Graded field n N eigenvalues test) : s'.Graded field n (N + 1) eigenvalues test := by
  obtain ⟨t, forcing, hrows, hforcing, ht, hF⟩ := hs.forcing hX
  simp only [advance, hrows, hforcing] at h
  split at h
  · cases h
  · rename_i split hsolve
    cases h
    exact hs.extend ht (FormStrategy.solve_graded hA hF hsolve)

theorem progress_graded (hX : field.Shaped n n) (hA : linear.Graded n n 1) {count : ℕ}
    (h : progress field linear eigenvalues strategy test count = .ok s) :
    s.Graded field n count eigenvalues test :=
  progress_keeps (P := fun N s => s.Graded field n N eigenvalues test)
    (start_graded eigenvalues test hX) (fun _ _ _ h hs => advance_graded hX hA h hs) h

/-- All terms are where their degrees and the divisors of the diagonal put them. -/
structure Classified (X : Tuple C) (n order : ℕ) (test : ZeroTest C) (N : NormalForm C) :
    Prop where
  eigenvalues : N.eigenvalues = (X.homogeneousPart 1).diagonalEigenvalues
  components_length : N.components.length = order
  family_length : N.family.length = order - 1
  linear : N.components[0]? = some ((X.homogeneousPart 1).scaleWeight 1)
  components_graded (i : ℕ) (f : Tuple C) : N.components[i]? = some f → f.Graded n n (i + 1)
  components_accepted (i : ℕ) (f : Tuple C) : 1 ≤ i → N.components[i]? = some f →
    f.Supported (Accepts N.eigenvalues test)
  family_graded (i : ℕ) (w : Tuple C) : N.family[i]? = some w → w.Graded n n (i + 2)
  family_rejected (i : ℕ) (w : Tuple C) : N.family[i]? = some w →
    w.Supported (Rejects N.eigenvalues test)
  field : N.field.Supported fun k m => 1 ≤ m.degree ∧ m.degree ≤ order ∧
    (2 ≤ m.degree → Accepts N.eigenvalues test k m)
  generator : N.generator.Supported fun k m => 2 ≤ m.degree ∧ m.degree ≤ order ∧
    Rejects N.eigenvalues test k m

theorem Classified.not_mem_generator {X : Tuple C} {order : ℕ} {N : NormalForm C}
    (h : N.Classified X n order test) {k : ℕ} {m : Monomial} {a b : C}
    (hfield : (m, a) ∈ (N.field.component k).terms) :
    (m, b) ∉ (N.generator.component k).terms := by
  intro hgenerator
  obtain ⟨-, -, haccepted⟩ := h.field k _ hfield
  obtain ⟨htwo, -, hrejected⟩ := h.generator k _ hgenerator
  exact not_accepts_of_rejects hrejected (haccepted htwo)

end NormalForm

namespace Tuple

variable {X : Tuple C} {vars : Variables} {order : ℕ} {strategy : FormStrategy}
  {test : ZeroTest C} {N : NormalForm C}

section Doubles

/-- The field `(2x + y + y², y + x²)` over doubles, with the resonant term `y²`. -/
def doubleField : Tuple FloatComplex :=
  ⟨2, [⟨2, [([0, 1], ⟨1, 0⟩), ([0, 2], ⟨1, 0⟩), ([1, 0], ⟨2, 0⟩)]⟩,
    ⟨2, [([0, 1], ⟨1, 0⟩), ([2, 0], ⟨1, 0⟩)]⟩]⟩

end Doubles

end Tuple

end LieNormalForm
