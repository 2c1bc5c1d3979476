import LieNormalForm.Proofs.Support.Triangle
import LieNormalForm.Action

/-!
# Orders and degrees in an action

The checks of an action only read the shapes of its arguments and the lowest degree of the
generator. So whatever holds of a run of the triangle for all orders holds of the action: the
result of a smaller order is the result of a larger one without the terms above, and it depends
on the terms of its arguments up to the order.
-/

namespace LieNormalForm

namespace Tuple

variable {C W : Type} [Coefficient C W] {f g U V : Tuple C} {vars : Variables} {r s : ℕ}

section Checks

theorem checkFunctions_ok {what : Checked} (h : f.checkFunctions vars what = .ok ()) :
    f.nvars = vars.size := by
  unfold checkFunctions at h
  split at h
  · assumption
  · cases h

theorem checkFunctions_congr (hnvars : f.nvars = g.nvars) (vars : Variables) (what : Checked) :
    f.checkFunctions vars what = g.checkFunctions vars what := by
  rw [checkFunctions, checkFunctions, hnvars]

theorem checkField_congr (hsize : f.size = g.size) (hnvars : f.nvars = g.nvars) (vars : Variables)
    (what : Checked) : f.checkField vars what = g.checkField vars what := by
  rw [checkField, checkField, hsize, checkFunctions_congr hnvars]

theorem checkGenerator_truncate (hr : 1 ≤ r) (U : Tuple C) (vars : Variables) :
    (U.truncate r).checkGenerator vars = U.checkGenerator vars := by
  have hfield : (U.truncate r).checkField vars .generator = U.checkField vars .generator :=
    checkField_congr (map_size U _) rfl vars .generator
  rw [checkGenerator, checkGenerator, hfield, minDegree?_truncate]
  cases U.minDegree? with
  | none => rfl
  | some d =>
    by_cases hd : d ≤ r
    · simp [Option.filter, hd]
    · have hlarge : ¬d < 2 := by omega
      simp [Option.filter, hd, hlarge]

theorem checkGenerator_congr (hr : 1 ≤ r) (h : U.truncate r = V.truncate r) (vars : Variables) :
    U.checkGenerator vars = V.checkGenerator vars := by
  rw [← checkGenerator_truncate hr U, h, checkGenerator_truncate hr V]

theorem checkGenerator_shaped (hU : U.WellFormed) (h : U.checkGenerator vars = .ok ()) :
    U.Shaped vars.size vars.size :=
  hU.shaped (checkGenerator_ok h).1 (checkGenerator_ok h).2.1

theorem checkAction_shaped (hf : f.WellFormed) (hU : U.WellFormed)
    (h : checkAction f U vars = .ok ()) :
    f.Shaped f.size vars.size ∧ U.Shaped vars.size vars.size := by
  unfold checkAction at h
  split at h
  · cases h
  · rename_i hcheck
    exact ⟨hf.shaped rfl (checkFunctions_ok hcheck), checkGenerator_shaped hU h⟩

theorem checkAdjoint_shaped (hf : f.WellFormed) (hU : U.WellFormed)
    (h : checkAdjoint f U vars = .ok ()) :
    f.Shaped vars.size vars.size ∧ U.Shaped vars.size vars.size := by
  unfold checkAdjoint at h
  split at h
  · cases h
  · rename_i hcheck
    obtain ⟨hsize, hnvars⟩ := checkField_ok hcheck
    exact ⟨hf.shaped hsize hnvars, checkGenerator_shaped hU h⟩

end Checks

section Stable

variable [Weight W] {run : LieTriangle C → Tuple C → ℕ → Except Error (Tuple C)}

/-- A checked run on functions. -/
def runAction (run : LieTriangle C → Tuple C → ℕ → Except Error (Tuple C)) (f U : Tuple C)
    (vars : Variables) (order : ℕ) : Except Error (Tuple C) :=
  match checkAction f U vars with
  | .error e => .error e
  | .ok _ => run (.ofGenerator .negatedDerivative U order) f order

theorem forwardAction_eq_run : forwardAction = runAction (C := C) LieTriangle.invert := rfl

theorem backwardAction_eq_run : backwardAction = runAction (C := C) LieTriangle.transform := rfl

/-- A checked run on a field. -/
def runAdjoint (run : LieTriangle C → Tuple C → ℕ → Except Error (Tuple C)) (x U : Tuple C)
    (vars : Variables) (order : ℕ) : Except Error (Tuple C) :=
  match checkAdjoint x U vars with
  | .error e => .error e
  | .ok _ => run (.ofGenerator .bracket U order) x order

theorem forwardAdjoint_eq_run : forwardAdjoint = runAdjoint (C := C) LieTriangle.transform := rfl

theorem backwardAdjoint_eq_run : backwardAdjoint = runAdjoint (C := C) LieTriangle.invert := rfl

theorem runAction_truncate (hrun : LieTriangle.Stable run) (hr : 1 ≤ r) (hrs : r ≤ s)
    (hf : f.WellFormed) (hU : U.WellFormed) :
    runAction run f U vars r = (runAction run f U vars s).map fun h => h.truncate r := by
  unfold runAction
  cases hcheck : checkAction f U vars with
  | error e => rfl
  | ok _ =>
    obtain ⟨hf, hU⟩ := checkAction_shaped hf hU hcheck
    have hL : (LieTriangle.ofGenerator .negatedDerivative U s).Graded f.size vars.size :=
      LieTriangle.graded_ofGenerator .negatedDerivative hU.framed nofun s
    have hsame := hrun.congr (LieTriangle.alike_ofGenerator .negatedDerivative U hr hrs) hL hf rfl
    exact hsame.symm.trans (hrun.truncate hL hf hrs)

theorem runAction_congr (hrun : LieTriangle.Stable run) (hr : 1 ≤ r) (hf : f.WellFormed)
    (hU : U.WellFormed) (hfg : f.truncate r = g.truncate r) (hUV : U.truncate r = V.truncate r) :
    runAction run f U vars r = runAction run g V vars r := by
  have hsame : checkAction f U vars = checkAction g V vars := by
    rw [checkAction, checkAction, checkFunctions_congr (nvars_eq_of_truncate hfg),
      checkGenerator_congr hr hUV]
  unfold runAction
  rw [← hsame]
  cases hcheck : checkAction f U vars with
  | error e => rfl
  | ok _ =>
    obtain ⟨hf, hU⟩ := checkAction_shaped hf hU hcheck
    exact hrun.congr (LieTriangle.alike_of_truncate hr hUV)
      (LieTriangle.graded_ofGenerator .negatedDerivative hU.framed nofun r) hf hfg

theorem runAdjoint_truncate (hrun : LieTriangle.Stable run) (hr : 1 ≤ r) (hrs : r ≤ s)
    (hf : f.WellFormed) (hU : U.WellFormed) :
    runAdjoint run f U vars r = (runAdjoint run f U vars s).map fun h => h.truncate r := by
  unfold runAdjoint
  cases hcheck : checkAdjoint f U vars with
  | error e => rfl
  | ok _ =>
    obtain ⟨hf, hU⟩ := checkAdjoint_shaped hf hU hcheck
    have hL := LieTriangle.graded_ofGenerator .bracket hU.framed (fun _ => rfl) s
    have hsame := hrun.congr (LieTriangle.alike_ofGenerator .bracket U hr hrs) hL hf rfl
    exact hsame.symm.trans (hrun.truncate hL hf hrs)

theorem runAdjoint_congr (hrun : LieTriangle.Stable run) (hr : 1 ≤ r) (hf : f.WellFormed)
    (hU : U.WellFormed) (hfg : f.truncate r = g.truncate r)
    (hUV : U.truncate (r + 1) = V.truncate (r + 1)) :
    runAdjoint run f U vars r = runAdjoint run g V vars r := by
  have hsame : checkAdjoint f U vars = checkAdjoint g V vars := by
    rw [checkAdjoint, checkAdjoint,
      checkField_congr (size_eq_of_truncate hfg) (nvars_eq_of_truncate hfg),
      checkGenerator_congr (Nat.le_succ_of_le hr) hUV]
  unfold runAdjoint
  rw [← hsame, ← LieTriangle.ofGenerator_eq_of_truncate .bracket hr hUV]
  cases hcheck : checkAdjoint f U vars with
  | error e => rfl
  | ok _ =>
    obtain ⟨hf, hU⟩ := checkAdjoint_shaped hf hU hcheck
    exact hrun.congr (.refl vars.size vars.size r _)
      (LieTriangle.graded_ofGenerator .bracket hU.framed (fun _ => rfl) r) hf hfg

end Stable

end Tuple

end LieNormalForm
