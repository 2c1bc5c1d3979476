import LieNormalForm.Graded.Triangle

/-!
# Actions of a generator

A generator `U` stands for the family `w_j = j!·(part of degree j + 2)` and for the time-one
flow `φ` of that family. The adjoint actions carry fields along `φ` and back, the plain
actions compose functions with `φ` and with its inverse.
-/

namespace LieNormalForm

namespace Tuple

variable {C W : Type} [Weight W] [Coefficient C W]

/-- A generator is a field without terms below degree two. -/
def checkGenerator (generator : Tuple C) (vars : Variables) : Except Error Unit :=
  match generator.checkField vars .generator with
  | .error e => .error e
  | .ok _ =>
    match generator.minDegree? with
    | none => .ok ()
    | some d => if d < 2 then .error (.lowDegreeGenerator d) else .ok ()

/-- A field and a generator in the given variables. -/
def checkAdjoint (x generator : Tuple C) (vars : Variables) : Except Error Unit :=
  match x.checkField vars .adjointField with
  | .error e => .error e
  | .ok _ => generator.checkGenerator vars

/-- Functions and a generator in the given variables. -/
def checkAction (f generator : Tuple C) (vars : Variables) : Except Error Unit :=
  match f.checkFunctions vars .actionSubject with
  | .error e => .error e
  | .ok _ => generator.checkGenerator vars

/-- The field `x` carried forward along the flow. -/
def forwardAdjoint (x generator : Tuple C) (vars : Variables) (order : Nat) :
    Except Error (Tuple C) :=
  match checkAdjoint x generator vars with
  | .error e => .error e
  | .ok _ => (LieTriangle.ofGenerator .bracket generator order).transform x order

/-- The field `x` pulled back along the flow. -/
def backwardAdjoint (x generator : Tuple C) (vars : Variables) (order : Nat) :
    Except Error (Tuple C) :=
  match checkAdjoint x generator vars with
  | .error e => .error e
  | .ok _ => (LieTriangle.ofGenerator .bracket generator order).invert x order

/-- The functions `f ∘ φ`, without the terms above the order. -/
def forwardAction (f generator : Tuple C) (vars : Variables) (order : Nat) :
    Except Error (Tuple C) :=
  match checkAction f generator vars with
  | .error e => .error e
  | .ok _ => (LieTriangle.ofGenerator .negatedDerivative generator order).invert f order

/-- The functions `f ∘ φ⁻¹`, without the terms above the order. -/
def backwardAction (f generator : Tuple C) (vars : Variables) (order : Nat) :
    Except Error (Tuple C) :=
  match checkAction f generator vars with
  | .error e => .error e
  | .ok _ => (LieTriangle.ofGenerator .negatedDerivative generator order).transform f order

theorem checkGenerator_ok {generator : Tuple C} {vars : Variables} {u : Unit}
    (h : generator.checkGenerator vars = .ok u) :
    generator.size = vars.size ∧ generator.nvars = vars.size ∧
      ∀ d, generator.minDegree? = some d → 2 ≤ d := by
  unfold checkGenerator at h
  split at h
  · cases h
  · rename_i hf
    have hf := checkField_ok hf
    refine ⟨hf.1, hf.2, fun d hd => ?_⟩
    rw [hd] at h
    dsimp only at h
    split at h
    · cases h
    · omega

theorem checkGenerator_zeros (vars : Variables) :
    (zeros vars.size vars.size : Tuple C).checkGenerator vars = .ok () := by
  have hz : ∀ k n : Nat, (List.replicate k (Poly.zero n : Poly C)).filterMap Poly.minDegree? = [] := by
    intro k n
    induction k with
    | zero => rfl
    | succ k ih => simp [List.replicate_succ, Poly.minDegree?, Poly.zero]
  simp [checkGenerator, checkField, checkFunctions, zeros, size, minDegree?, hz]

end Tuple

end LieNormalForm
