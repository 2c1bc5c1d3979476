import LieNormalForm.Action
import LieNormalForm.NormalForm
import LieNormalForm.Tuple.Text

/-!
# Systems given as text

A system of equations in named variables, and what is computed for it: every result is
written as equations again. An error says what was being done and then its cause.
-/

namespace LieNormalForm

/-- The four ways in which a generator acts. -/
inductive ActionKind
  | forward | backward | forwardAdjoint | backwardAdjoint
deriving DecidableEq

def ActionKind.name : ActionKind → String
  | forward => "Forward"
  | backward => "Backward"
  | forwardAdjoint => "ForwardAdjoint"
  | backwardAdjoint => "BackwardAdjoint"

/-- What is done for a system. -/
inductive EquationTask
  | readNames
  | readEquations
  | readStrategy
  | act (kind : ActionKind)
  | normalForm
  | readNewNames
  | jordan
deriving DecidableEq

/-- What is said when a task fails, nothing for a wrong name of a strategy. -/
def EquationTask.failure? : EquationTask → Option String
  | readNames => some "Invalid variable names"
  | readEquations => some "Failed to parse equations"
  | readStrategy => none
  | act kind => some (kind.name ++ " action failed")
  | normalForm => some "Normal form failed"
  | readNewNames => some "Invalid new variable names"
  | jordan => some "Jordan reduction failed"

/-- A failed task and its cause. -/
structure EquationError where
  task : EquationTask
  cause : Error
deriving DecidableEq

def EquationError.message (e : EquationError) : String :=
  match e.task.failure? with
  | some failure => failure ++ ": " ++ e.cause.message
  | none => e.cause.message

/-- A result of a task, its error marked with the task. -/
def EquationTask.run {α : Type} (task : EquationTask) : Except Error α → Except EquationError α
  | .ok a => .ok a
  | .error cause => .error ⟨task, cause⟩

/-- A tuple with the variables that it is written in. -/
structure Equations (C : Type) where
  vars : Variables
  field : Tuple C

/-- A computed normal form as text. -/
structure WrittenNormalForm (C : Type) where
  field : List String
  generator : List String
  eigenvalues : List C
  family : List (List String)

namespace Equations

variable {C R : Type} [RealNumber R] [Numeral R] [ComplexNumber C R]

/-- Reads further equations in the variables of a system. -/
def readTuple (vars : Variables) (equations : List String) : Except EquationError (Tuple C) :=
  EquationTask.readEquations.run (Tuple.parse vars equations)

/-- Reads a system. -/
def read (names equations : List String) : Except EquationError (Equations C) :=
  match EquationTask.readNames.run (Variables.ofNames names) with
  | .error e => .error e
  | .ok vars =>
    match readTuple vars equations with
    | .error e => .error e
    | .ok field => .ok ⟨vars, field⟩

def dimension (s : Equations C) : Nat := s.vars.size

/-- The equations of a system as they are written. -/
def equations (s : Equations C) : List String := s.field.render s.vars

/-- The action of a generator on the tuple of a system. -/
def act (s : Equations C) (kind : ActionKind) (generator : Tuple C) (order : Nat) :
    Except EquationError (List String) :=
  let result := match kind with
    | .forward => s.field.forwardAction generator s.vars order
    | .backward => s.field.backwardAction generator s.vars order
    | .forwardAdjoint => s.field.forwardAdjoint generator s.vars order
    | .backwardAdjoint => s.field.backwardAdjoint generator s.vars order
  match (EquationTask.act kind).run result with
  | .error e => .error e
  | .ok f => .ok (f.render s.vars)

/-- A tolerance above zero is compared with, any other stands for the exact test. -/
def testFor (tolerance : R) : ResonanceTest C R :=
  if RealNumber.lt 0 tolerance then .tolerance tolerance else .exact

/-- The normal form of a system; the name of the strategy is read first. -/
def normalForm (s : Equations C) (order : Nat) (strategy : String) (tolerance : R) :
    Except EquationError (WrittenNormalForm C) :=
  match EquationTask.readStrategy.run (FormStrategy.parse strategy) with
  | .error e => .error e
  | .ok formStrategy =>
    match EquationTask.normalForm.run
        (s.field.normalForm s.vars order ⟨testFor tolerance, formStrategy⟩) with
    | .error e => .error e
    | .ok r =>
      .ok ⟨r.field.render s.vars, r.generator.render s.vars, r.eigenvalues,
        r.family.map fun f => f.render s.vars⟩

theorem read_vars {names texts : List String} {s : Equations C}
    (h : read names texts = .ok s) : s.vars.names = names ∧ s.vars.names.Nodup := by
  unfold read EquationTask.run at h
  split at h
  · cases h
  · rename_i vars hvars
    split at hvars
    · rename_i names' hnames
      cases hvars
      split at h
      · cases h
      · cases h
        exact Variables.ofNames_nodup hnames
    · cases hvars

end Equations

end LieNormalForm
