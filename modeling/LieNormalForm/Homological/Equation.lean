import LieNormalForm.FormStrategy
import LieNormalForm.Homological.Nilpotent
import LieNormalForm.Homological.Semisimple

/-!
# Solving the homological equation

The strategy picks the solver. `solveHomological` checks in addition that everything is
written in the given variables and that the forcing term is homogeneous.
-/

namespace LieNormalForm

variable {C W : Type} [Coefficient C W]

/-- The solver of a strategy. -/
def FormStrategy.solve (strategy : FormStrategy) (linear : Tuple C) (eigenvalues : List C)
    (forcing : Tuple C) (test : ZeroTest C) : Except Error (Split C) :=
  match strategy with
  | semisimple => Split.semisimple linear eigenvalues forcing test
  | nilpotent => Split.nilpotent linear eigenvalues forcing test

namespace Tuple

/-- The first term of a degree other than `d`. -/
def offDegree? (f : Tuple C) (d : Nat) : Option (Term C) :=
  (f.components.flatMap Poly.terms).find? fun t => t.1.degree != d

/-- Every term has degree `d`. -/
def checkDegree (f : Tuple C) (d : Nat) (what : Checked) : Except Error Unit :=
  match f.offDegree? d with
  | none => .ok ()
  | some t => .error (.shape what d t.1.degree)

theorem checkDegree_ok {f : Tuple C} {d : Nat} {what : Checked} {u : Unit}
    (h : f.checkDegree d what = .ok u) : ∀ p ∈ f.components, ∀ t ∈ p.terms, t.1.degree = d := by
  unfold checkDegree offDegree? at h
  split at h
  · rename_i hnone
    intro p hp t ht
    have := List.find?_eq_none.1 hnone t (List.mem_flatMap.2 ⟨p, hp, ht⟩)
    simpa using this
  · cases h

end Tuple

/-- What the checked entry asks of its input, in the order of the answers. -/
def checkHomological (linear : Tuple C) (eigenvalues : List C) (forcing : Tuple C)
    (vars : Variables) (degree : Nat) : Except Error Unit :=
  match linear.checkField vars .linearPart with
  | .error e => .error e
  | .ok _ =>
    match forcing.checkField vars .forcingTerm with
    | .error e => .error e
    | .ok _ =>
      if eigenvalues.length = vars.size then forcing.checkDegree degree .forcingDegree
      else .error (.shape .eigenvalues vars.size eigenvalues.length)

/-- One step of the homological equation in the given variables: `[A, Y] + G = F` for a
homogeneous forcing term `F` of the given degree. -/
def solveHomological (strategy : FormStrategy) (linear : Tuple C) (eigenvalues : List C)
    (forcing : Tuple C) (vars : Variables) (degree : Nat) (test : ZeroTest C) :
    Except Error (Split C) :=
  match checkHomological linear eigenvalues forcing vars degree with
  | .error e => .error e
  | .ok _ => strategy.solve linear eigenvalues forcing test

theorem checkHomological_ok {linear forcing : Tuple C} {eigenvalues : List C} {vars : Variables}
    {degree : Nat} {u : Unit}
    (h : checkHomological linear eigenvalues forcing vars degree = .ok u) :
    Split.checkInput linear eigenvalues forcing = .ok () := by
  unfold checkHomological at h
  split at h
  · cases h
  · rename_i hl
    split at h
    · cases h
    · rename_i hf
      split at h
      · rename_i he
        have hl := Tuple.checkField_ok hl
        have hf := Tuple.checkField_ok hf
        simp [Split.checkInput, Split.requireSizes, hl, hf, he]
      · cases h

end LieNormalForm
