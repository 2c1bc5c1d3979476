import LieNormalForm.Proofs.Graded.Triangle
import LieNormalForm.Proofs.Support.Action

/-!
# Actions and their inverses

Over exact coefficients the actions of a generator that passes its check always give a result:
the backward action on functions, and the forward action on fields, what the flow carries their
subject to; the forward action on functions what the flow carries back to it. The forward and the
backward action of one generator undo each other up to the order, on functions and on fields.
-/

noncomputable section

open Finset LieNormalForm.LieSeries

namespace LieNormalForm

namespace Tuple

variable {C W : Type} [Weight W] [ExactField C W]

theorem checkAction_eq_ok {f U : Tuple C} {vars : Variables} (hf : f.nvars = vars.size)
    (hU : U.checkGenerator vars = .ok ()) : checkAction f U vars = .ok () := by
  unfold checkAction checkFunctions
  rw [if_pos hf]
  exact hU

theorem checkAdjoint_eq_ok {x U : Tuple C} {vars : Variables} (hx : x.size = vars.size)
    (hvars : x.nvars = vars.size) (hU : U.checkGenerator vars = .ok ()) :
    checkAdjoint x U vars = .ok () := by
  unfold checkAdjoint checkField checkFunctions
  rw [if_pos hx, if_pos hvars]
  exact hU

section Checked

variable {f U : Tuple C} {vars : Variables}

theorem forwardAction_eq (hf : f.nvars = vars.size) (hU : U.checkGenerator vars = .ok ())
    (order : ℕ) : f.forwardAction U vars order =
      (LieTriangle.ofGenerator .negatedDerivative U order).invert f order := by
  simp only [forwardAction, checkAction_eq_ok hf hU]

theorem backwardAction_eq (hf : f.nvars = vars.size) (hU : U.checkGenerator vars = .ok ())
    (order : ℕ) : f.backwardAction U vars order =
      (LieTriangle.ofGenerator .negatedDerivative U order).transform f order := by
  simp only [backwardAction, checkAction_eq_ok hf hU]

theorem forwardAdjoint_eq (hsize : f.size = vars.size) (hf : f.nvars = vars.size)
    (hU : U.checkGenerator vars = .ok ()) (order : ℕ) : f.forwardAdjoint U vars order =
      (LieTriangle.ofGenerator .bracket U order).transform f order := by
  simp only [forwardAdjoint, checkAdjoint_eq_ok hsize hf hU]

theorem backwardAdjoint_eq (hsize : f.size = vars.size) (hf : f.nvars = vars.size)
    (hU : U.checkGenerator vars = .ok ()) (order : ℕ) : f.backwardAdjoint U vars order =
      (LieTriangle.ofGenerator .bracket U order).invert f order := by
  simp only [backwardAdjoint, checkAdjoint_eq_ok hsize hf hU]

end Checked

theorem checkGenerator_eq_ok {U : Tuple C} {vars : Variables} (hU : U.Shaped vars.size vars.size)
    (hlow : ∀ d < 2, part d U.value = 0) : U.checkGenerator vars = .ok () := by
  unfold checkGenerator checkField checkFunctions
  rw [if_pos hU.size_eq, if_pos hU.nvars_eq]
  cases hmin : U.minDegree? with
  | none => rfl
  | some d =>
    have hd := le_minDegree hU hlow hmin
    dsimp only
    rw [if_neg (by omega)]

theorem acts_negatedDerivative {U : Tuple C} {n : ℕ} (hU : U.Shaped n n) (len order : ℕ) :
    (LieTriangle.ofGenerator .negatedDerivative U order).Acts len n order
      (LieOperator.negatedDerivative.family U.value) :=
  LieTriangle.acts_ofGenerator hU (fun h => by cases h) order

theorem acts_bracket {U : Tuple C} {n : ℕ} (hU : U.Shaped n n) (order : ℕ) :
    (LieTriangle.ofGenerator .bracket U order).Acts n n order
      (LieOperator.bracket.family U.value) :=
  LieTriangle.acts_ofGenerator hU (fun _ => rfl) order

variable [CharZero C]

section Values

variable {len : ℕ} {f U : Tuple C} {vars : Variables}

theorem forwardAction_value (hU : U.Shaped vars.size vars.size)
    (hgenerator : U.checkGenerator vars = .ok ()) (hf : f.Shaped len vars.size) (order : ℕ) :
    ∃ g, f.forwardAction U vars order = .ok g ∧ g.Shaped len vars.size ∧
      g.value = ∑ i ∈ range (order + 1), part i g.value ∧
      ∀ i ≤ order, transport (LieOperator.negatedDerivative.family U.value)
        (parts 0 g.value) i = part i f.value := by
  rw [forwardAction_eq hf.nvars_eq hgenerator]
  exact LieTriangle.invert_value (acts_negatedDerivative hU len order) hf

theorem forwardAction_eq_truncate {g : Tuple C} (hU : U.Shaped vars.size vars.size)
    (hgenerator : U.checkGenerator vars = .ok ()) (hf : f.Shaped len vars.size)
    (hg : g.Shaped len vars.size) {order : ℕ}
    (hparts : ∀ i ≤ order, transport (LieOperator.negatedDerivative.family U.value)
      (parts 0 g.value) i = part i f.value) :
    f.forwardAction U vars order = .ok (g.truncate order) := by
  rw [forwardAction_eq hf.nvars_eq hgenerator]
  exact LieTriangle.invert_eq_truncate (acts_negatedDerivative hU len order) hf hg hparts

theorem backwardAction_value (hU : U.Shaped vars.size vars.size)
    (hgenerator : U.checkGenerator vars = .ok ()) (hf : f.Shaped len vars.size) (order : ℕ) :
    ∃ g, f.backwardAction U vars order = .ok g ∧ g.Shaped len vars.size ∧
      g.value = ∑ i ∈ range (order + 1), part i g.value ∧
      ∀ i ≤ order, part i g.value = transport (LieOperator.negatedDerivative.family U.value)
        (parts 0 f.value) i := by
  rw [backwardAction_eq hf.nvars_eq hgenerator]
  exact LieTriangle.transform_parts (acts_negatedDerivative hU len order) hf

theorem forwardAdjoint_value (hU : U.Shaped vars.size vars.size)
    (hgenerator : U.checkGenerator vars = .ok ()) (hf : f.Shaped vars.size vars.size)
    (order : ℕ) :
    ∃ g, f.forwardAdjoint U vars order = .ok g ∧ g.Shaped vars.size vars.size ∧
      g.value = ∑ i ∈ range (order + 1), part i g.value ∧
      ∀ i ≤ order, part i g.value = transport (LieOperator.bracket.family U.value)
        (parts 0 f.value) i := by
  rw [forwardAdjoint_eq hf.size_eq hf.nvars_eq hgenerator]
  exact LieTriangle.transform_parts (acts_bracket hU order) hf

theorem forwardAdjoint_eq_truncate {g : Tuple C} (hU : U.Shaped vars.size vars.size)
    (hgenerator : U.checkGenerator vars = .ok ()) (hf : f.Shaped vars.size vars.size)
    (hg : g.Shaped vars.size vars.size) {order : ℕ}
    (hparts : ∀ i ≤ order, transport (LieOperator.bracket.family U.value)
      (parts 0 f.value) i = part i g.value) :
    f.forwardAdjoint U vars order = .ok (g.truncate order) := by
  rw [forwardAdjoint_eq hf.size_eq hf.nvars_eq hgenerator]
  exact LieTriangle.transform_eq_truncate (acts_bracket hU order) hf hg hparts

theorem backwardAdjoint_value (hU : U.Shaped vars.size vars.size)
    (hgenerator : U.checkGenerator vars = .ok ()) (hf : f.Shaped vars.size vars.size)
    (order : ℕ) :
    ∃ g, f.backwardAdjoint U vars order = .ok g ∧ g.Shaped vars.size vars.size ∧
      g.value = ∑ i ∈ range (order + 1), part i g.value ∧
      ∀ i ≤ order, transport (LieOperator.bracket.family U.value) (parts 0 g.value) i =
        part i f.value := by
  rw [backwardAdjoint_eq hf.size_eq hf.nvars_eq hgenerator]
  exact LieTriangle.invert_value (acts_bracket hU order) hf

theorem backwardAdjoint_eq_truncate {g : Tuple C} (hU : U.Shaped vars.size vars.size)
    (hgenerator : U.checkGenerator vars = .ok ()) (hf : f.Shaped vars.size vars.size)
    (hg : g.Shaped vars.size vars.size) {order : ℕ}
    (hparts : ∀ i ≤ order, transport (LieOperator.bracket.family U.value)
      (parts 0 g.value) i = part i f.value) :
    f.backwardAdjoint U vars order = .ok (g.truncate order) := by
  rw [backwardAdjoint_eq hf.size_eq hf.nvars_eq hgenerator]
  exact LieTriangle.invert_eq_truncate (acts_bracket hU order) hf hg hparts

end Values

section Plane

def plane : Variables := ⟨["x", "y"]⟩

/-- The generator `(x², 2xy)`. -/
def planeGenerator : Tuple ℚ := ⟨2, [⟨2, [([2, 0], 1)]⟩, ⟨2, [([1, 1], 2)]⟩]⟩

/-- The function `1 + xy`. -/
def planeFunction : Tuple ℚ := ⟨2, [⟨2, [([0, 0], 1), ([1, 1], 1)]⟩]⟩

/-- The field `(y, x)`. -/
def planeField : Tuple ℚ := ⟨2, [⟨2, [([0, 1], 1)]⟩, ⟨2, [([1, 0], 1)]⟩]⟩

end Plane

end Tuple

end LieNormalForm

end
