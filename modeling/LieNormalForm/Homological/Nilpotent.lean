import LieNormalForm.Homological.Split
import LieNormalForm.Jacobian

/-!
# Upper-triangular linear parts

Components are swept from the last to the first. Within a component the term of least weight
`Σ_j j·α_j` is handled first: a resonant one moves to the remainder, any other is removed by
a bracket with the linear part. With an upper-triangular linear part that bracket only
brings in heavier terms of the same component and terms of earlier components, so every
monomial is handled once. The sweep runs within a budget of steps and says so when the
budget is used up.
-/

namespace LieNormalForm

namespace Monomial

/-- `Σ_j j·α_j`, the first exponent counted `j` times. -/
def weightFrom : Nat → Monomial → Nat
  | _, [] => 0
  | j, a :: m => j * a + weightFrom (j + 1) m

def weight (m : Monomial) : Nat := weightFrom 0 m

theorem weightFrom_succ (j : Nat) (m : Monomial) :
    weightFrom (j + 1) m = weightFrom j m + degree m := by
  induction m generalizing j with
  | nil => rfl
  | cons a m ih =>
    rw [weightFrom, weightFrom, ih, degree_cons, Nat.succ_mul]
    omega

end Monomial

namespace Poly

variable {C : Type}

/-- The lighter of two terms, the first one if they weigh the same. -/
def lighter (s t : Term C) : Term C := if t.1.weight < s.1.weight then t else s

/-- The first of the lightest terms. -/
def lightest? (p : Poly C) : Option (Term C) :=
  match p.terms with
  | [] => none
  | t :: ts => some (ts.foldl lighter t)

theorem lightest?_eq_none_iff (p : Poly C) : p.lightest? = none ↔ p.isZero = true := by
  unfold lightest?
  split <;> simp_all [isZero]

theorem foldl_lighter_mem (t : Term C) (ts : List (Term C)) : ts.foldl lighter t ∈ t :: ts := by
  induction ts generalizing t with
  | nil => simp
  | cons u ts ih =>
    rw [List.foldl_cons]
    have h := ih (lighter t u)
    unfold lighter at h ⊢
    split at h <;> rename_i hlt <;> simp only [hlt, if_true, if_false] at * <;> grind

theorem lightest?_mem {p : Poly C} {t : Term C} (h : p.lightest? = some t) : t ∈ p.terms := by
  unfold lightest? at h
  split at h
  · cases h
  · rename_i s ts hts
    cases h
    rw [hts]
    exact foldl_lighter_mem s ts

end Poly

namespace Tuple

variable {C W : Type} [Coefficient C W]

/-- No entry of the linear part below the diagonal. -/
def isUpperTriangular (f : Tuple C) : Bool :=
  let m := f.linearPart
  (List.range m.nrows).all fun i => (List.range (min i m.ncols)).all fun j =>
    Coefficient.isZero (m.entry i j)

end Tuple

namespace Split

variable {C W : Type} [Coefficient C W]

/-- What is left of the forcing term, and the solution so far. -/
structure Sweep (C : Type) where
  residual : Tuple C
  remainder : Tuple C
  generator : Tuple C

namespace Sweep

def start (forcing : Tuple C) : Sweep C :=
  ⟨forcing, .zeros forcing.size forcing.nvars, .zeros forcing.size forcing.nvars⟩

/-- Moves a resonant term of component `k` to the remainder. -/
def keep (s : Sweep C) (k : Nat) (t : Term C) : Sweep C :=
  ⟨s.residual.modify k fun p => p.removeTerm t.1,
    s.remainder.modify k fun p => p.addTerm t.1 t.2, s.generator⟩

/-- Removes a term of component `k` by a bracket; what rounding leaves of it is dropped. -/
def eliminate (linear : Tuple C) (s : Sweep C) (k : Nat) (m : Monomial) (c : C) : Sweep C :=
  let y := Tuple.single s.residual.size k (Poly.ofTerm m c)
  ⟨(s.residual - linear.bracket y).modify k fun p => p.removeTerm m,
    s.remainder, s.generator.modify k fun p => p.addTerm m c⟩

/-- Handles one term of component `k`. -/
def handle (linear : Tuple C) (eigenvalues : List C) (test : ZeroTest C) (s : Sweep C) (k : Nat)
    (t : Term C) : Except Error (Sweep C) :=
  match classify k t.1 eigenvalues test with
  | .error e => .error e
  | .ok .resonant => .ok (s.keep k t)
  | .ok (.eliminable d) => .ok (eliminate linear s k t.1 (t.2 / d))

/-- Handles the lightest term of component `k` until there is none, in at most `budget` steps. -/
def component (linear : Tuple C) (eigenvalues : List C) (test : ZeroTest C) (k : Nat) :
    Nat → Sweep C → Except Error (Sweep C)
  | 0, s => if (s.residual.component k).isZero then .ok s else .error .sweepUnfinished
  | budget + 1, s =>
    match (s.residual.component k).lightest? with
    | none => .ok s
    | some t =>
      match handle linear eigenvalues test s k t with
      | .error e => .error e
      | .ok s' => component linear eigenvalues test k budget s'

/-- Sweeps the components below `count`, from the last to the first. -/
def components (linear : Tuple C) (eigenvalues : List C) (test : ZeroTest C) (budget : Nat) :
    Nat → Sweep C → Except Error (Sweep C)
  | 0, s => .ok s
  | k + 1, s =>
    match component linear eigenvalues test k budget s with
    | .error e => .error e
    | .ok s' => components linear eigenvalues test budget k s'

end Sweep

/-- Steps that are enough for one component: the exponent lists with no exponent above the
degree of the forcing term, and for linear parts with further terms an allowance that no run
lives to use up. -/
def sweepBudget (forcing : Tuple C) : Nat :=
  Nat.pow (forcing.degree?.getD 0 + 1) forcing.nvars + Nat.pow 2 60

/-- The sweep within a budget of steps for each component. -/
def nilpotentWithin (budget : Nat) (linear : Tuple C) (eigenvalues : List C) (forcing : Tuple C)
    (test : ZeroTest C) : Except Error (Split C) :=
  match checkInput linear eigenvalues forcing with
  | .error e => .error e
  | .ok _ =>
    if linear.isUpperTriangular then
      match Sweep.components linear eigenvalues test budget forcing.size (.start forcing) with
      | .error e => .error e
      | .ok s => .ok ⟨s.remainder, s.generator⟩
    else .error .notTriangular

/-- The solution for an upper-triangular linear part with the given diagonal. -/
def nilpotent (linear : Tuple C) (eigenvalues : List C) (forcing : Tuple C) (test : ZeroTest C) :
    Except Error (Split C) :=
  nilpotentWithin (sweepBudget forcing) linear eigenvalues forcing test

theorem Sweep.keep_generator (s : Sweep C) (k : Nat) (t : Term C) :
    (s.keep k t).generator = s.generator := rfl

theorem Sweep.eliminate_remainder (linear : Tuple C) (s : Sweep C) (k : Nat) (m : Monomial)
    (c : C) : (eliminate linear s k m c).remainder = s.remainder := rfl

/-- A finished sweep of a component leaves nothing of it. -/
theorem Sweep.component_residual {linear : Tuple C} {eigenvalues : List C} {test : ZeroTest C}
    {k budget : Nat} {s s' : Sweep C}
    (h : component linear eigenvalues test k budget s = .ok s') :
    (s'.residual.component k).isZero = true := by
  induction budget generalizing s with
  | zero =>
    simp only [component] at h
    split at h
    · cases h
      assumption
    · cases h
  | succ budget ih =>
    simp only [component] at h
    split at h
    · rename_i hnone
      cases h
      exact (Poly.lightest?_eq_none_iff _).1 hnone
    · split at h
      · cases h
      · exact ih h

/-- A larger budget does not change the answer of a sweep that came to an end. -/
theorem Sweep.component_budget {linear : Tuple C} {eigenvalues : List C} {test : ZeroTest C}
    {k budget : Nat} {s : Sweep C}
    (h : component linear eigenvalues test k budget s ≠ .error .sweepUnfinished) (extra : Nat) :
    component linear eigenvalues test k (budget + extra) s =
      component linear eigenvalues test k budget s := by
  induction budget generalizing s with
  | zero =>
    simp only [component] at h ⊢
    split at h
    · rename_i hz
      cases extra with
      | zero => simp [component, hz]
      | succ extra =>
        rw [Nat.zero_add, component, (Poly.lightest?_eq_none_iff _).2 hz, if_pos hz]
    · exact absurd rfl h
  | succ budget ih =>
    rw [Nat.succ_add]
    simp only [component] at h ⊢
    split at h
    · rfl
    · split at h
      · rfl
      · exact ih h

end Split

end LieNormalForm
