import LieNormalForm.Error
import LieNormalForm.Text.Blank

/-!
# Strategies for the homological equation

The strategy is chosen by name; letter case and surrounding white space do not matter.
-/

namespace LieNormalForm

inductive FormStrategy
  /-- A diagonal linear part: every component is solved on its own. -/
  | semisimple
  /-- An upper-triangular linear part: the components are coupled. -/
  | nilpotent
deriving DecidableEq

namespace FormStrategy

def name : FormStrategy → String
  | semisimple => "Semisimple"
  | nilpotent => "Nilpotent"

/-- Reads the name of a strategy. -/
def parse (text : String) : Except Error FormStrategy :=
  match String.ofList ((Text.trim text.toList).map Char.toLower) with
  | "semisimple" => .ok semisimple
  | "nilpotent" => .ok nilpotent
  | _ => .error (.unrecognizedStrategy text)

theorem parse_name (s : FormStrategy) : parse s.name = .ok s := by
  cases s <;> rfl

end FormStrategy

end LieNormalForm
