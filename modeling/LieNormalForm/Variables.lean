import LieNormalForm.Error

/-!
# Variables

The names that a polynomial is read and written with. `ofNames` refuses a list in which a
name appears twice, and names the first one that has appeared before.
-/

namespace LieNormalForm

structure Variables where
  names : List String
deriving DecidableEq

namespace Variables

/-- The first name that already appeared, `seen` standing before the list. -/
def firstRepeated? (seen : List String) : List String → Option String
  | [] => none
  | name :: rest => if name ∈ seen then some name else firstRepeated? (name :: seen) rest

/-- Distinct names, in their order. -/
def ofNames (names : List String) : Except Error Variables :=
  match firstRepeated? [] names with
  | some name => .error (.duplicateVariable name)
  | none => .ok ⟨names⟩

def size (vars : Variables) : Nat := vars.names.length

def isEmpty (vars : Variables) : Bool := vars.names.isEmpty

/-- The position of the first variable with this name. -/
def indexOf? (vars : Variables) (name : String) : Option Nat :=
  vars.names.findIdx? (· == name)

/-- The name of variable `k`; a variable without a name is written `x` and its number. -/
def nameOf (vars : Variables) (k : Nat) : String := vars.names.getD k s!"x{k}"

theorem firstRepeated?_eq_none_iff (seen names : List String) :
    firstRepeated? seen names = none ↔ names.Nodup ∧ ∀ n ∈ names, n ∉ seen := by
  induction names generalizing seen with
  | nil => simp [firstRepeated?]
  | cons name rest ih =>
    simp only [firstRepeated?]
    split
    · simp_all
    · rw [ih]
      simp only [List.nodup_cons, List.mem_cons, not_or, forall_eq_or_imp]
      grind

theorem ofNames_nodup {names : List String} {vars : Variables} (h : ofNames names = .ok vars) :
    vars.names = names ∧ vars.names.Nodup := by
  unfold ofNames at h
  split at h
  · cases h
  · rename_i hnone
    cases h
    exact ⟨rfl, ((firstRepeated?_eq_none_iff [] names).1 hnone).1⟩

theorem lt_of_indexOf? {vars : Variables} {name : String} {k : Nat}
    (h : vars.indexOf? name = some k) : k < vars.size :=
  (List.findIdx?_eq_some_iff_getElem.1 h).1

end Variables

end LieNormalForm
