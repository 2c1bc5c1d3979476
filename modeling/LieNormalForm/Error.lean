import LieNormalForm.Monomial

/-!
# What can go wrong

Every failure is a cause of the domain; `Error.message` holds the wording.
-/

namespace LieNormalForm

/-- The things whose shape is checked. -/
inductive Checked
  | monomialExponents | substitutionImages | imageVariables | componentVariables | tuple
  | jacobianArgument | bracketFirst | bracketSecond
  | eigenvalues | componentIndex | forcingTerm | linearPart | forcingDegree
  | normalFormInput | adjointField | actionSubject | generator | nearIdentityMap | exponentialField
  | jordanField | newVariables | jordanColumns
deriving DecidableEq

def Checked.name : Checked → String
  | monomialExponents => "monomial exponent vector"
  | substitutionImages => "substitution images"
  | imageVariables => "substitution image variable count"
  | componentVariables => "component variable count"
  | tuple => "checked tuple"
  | jacobianArgument => "Jacobian argument"
  | bracketFirst => "Lie bracket first argument"
  | bracketSecond => "Lie bracket second argument"
  | eigenvalues => "eigenvalues"
  | componentIndex => "component index"
  | forcingTerm => "forcing term"
  | linearPart => "linear part"
  | forcingDegree => "forcing term degree"
  | normalFormInput => "normal form input"
  | adjointField => "adjoint action field"
  | actionSubject => "action subject"
  | generator => "generator"
  | nearIdentityMap => "near-identity map"
  | exponentialField => "exponential field"
  | jordanField => "Jordan input field"
  | newVariables => "new variables"
  | jordanColumns => "Jordan matrix columns"

/-- Why a text is no polynomial. -/
inductive ParseFault
  | malformedNumber (text : String)
  | unexpectedCharacter (c : Char)
  | unexpectedToken (shown : String)
  | trailingToken (shown input : String)
  | unexpectedEnd
  | missingParenthesis
  | unknownIdentifier (name : String)
  | notPolynomial (function : String)
  | nonconstantDivisor
  | divisionByZero
  | nonconstantExponent
  | exponentNotNatural (shown : String)
  | exponentTooLarge (shown : String) (limit : Nat)
  | degreeTooLarge (degree limit : Nat)
  | unknownOperator (symbol : Char)
deriving DecidableEq

def ParseFault.message : ParseFault → String
  | malformedNumber text => s!"malformed number `{text}`"
  | unexpectedCharacter c => s!"unexpected character `{c}`"
  | unexpectedToken shown => s!"unexpected token {shown}"
  | trailingToken shown input => s!"unexpected token {shown} in `{input}`"
  | unexpectedEnd => "unexpected end of input"
  | missingParenthesis => "expected ')'"
  | unknownIdentifier name => s!"unknown identifier `{name}`"
  | notPolynomial function => s!"function `{function}` is not polynomial"
  | nonconstantDivisor => "division by a non-constant"
  | divisionByZero => "division by zero"
  | nonconstantExponent => "exponent must be a constant"
  | exponentNotNatural shown => s!"exponent {shown} is not a non-negative integer"
  | exponentTooLarge shown limit => s!"exponent {shown} exceeds the maximum degree {limit}"
  | degreeTooLarge degree limit => s!"expanded degree {degree} exceeds the maximum degree {limit}"
  | unknownOperator symbol => s!"unknown operator `{symbol}`"

/-- Why a linear part is not brought to Jordan form. -/
inductive JordanFault
  | toleranceNotPositive
  | singularBasis
  | noConvergence
  | brokenChain
  | mixedBlocks (eigenvalue : String) (eigenvectors multiplicity : Nat)
  | columnCount (found dimension : Nat)
deriving DecidableEq

def JordanFault.message : JordanFault → String
  | toleranceNotPositive => "tolerance must be positive"
  | singularBasis => "similarity basis is singular"
  | noConvergence => "Schur decomposition did not converge"
  | brokenChain => "chain of generalized eigenvectors has no next link"
  | mixedBlocks eigenvalue eigenvectors multiplicity =>
    s!"eigenvalue {eigenvalue} has {eigenvectors} eigenvectors for multiplicity {multiplicity}; "
      ++ "mixed Jordan blocks are not supported"
  | columnCount found dimension => s!"found {found} basis vectors for dimension {dimension}"

/-- Which part of a map is too far from the identity. -/
inductive IdentityFault
  | linearPart
  | constantTerm
deriving DecidableEq

def IdentityFault.message : IdentityFault → String
  | linearPart => "linear part is not the identity"
  | constantTerm => "map has a constant term"

inductive Error
  | shape (what : Checked) (expected found : Nat)
  | duplicateVariable (name : String)
  | unrecognizedStrategy (value : String)
  | singularDivisor (component : Nat) (exponents : Monomial)
  | invalidOrder (order minimum : Nat)
  | lowDegreeGenerator (degree : Nat)
  | notTriangular
  | notNearIdentity (fault : IdentityFault)
  | jordan (fault : JordanFault)
  | parse (fault : ParseFault)
  /-- A graded table was asked for an entry that was never filled in. -/
  | missingEntry (row column : Nat)
  /-- A nilpotent sweep used up its budget of steps. -/
  | sweepUnfinished
deriving DecidableEq

/-- The exponents in brackets, separated by commas. -/
def exponentText (m : Monomial) : String :=
  "[" ++ ", ".intercalate (m.map toString) ++ "]"

def Error.message : Error → String
  | shape what expected found =>
    let name := what.name
    s!"shape mismatch in {name}: expected {expected}, found {found}"
  | duplicateVariable name => s!"variable `{name}` appears more than once"
  | unrecognizedStrategy value => s!"unrecognized value `{value}` for option `form_strategy`"
  | singularDivisor component exponents =>
    let shown := exponentText exponents
    s!"divisor of monomial {shown} in component {component} is zero but was classified non-resonant"
  | invalidOrder order minimum => s!"order {order} is below the minimum of {minimum}"
  | lowDegreeGenerator degree =>
    s!"generator has a nonzero degree-{degree} part; generators start at degree two"
  | notTriangular =>
    "linear part has entries below the diagonal; the nilpotent solver needs "
      ++ "upper-triangular (Jordan) form"
  | notNearIdentity fault =>
    let reason := fault.message
    s!"map is not near-identity: {reason}"
  | jordan fault =>
    let reason := fault.message
    s!"Jordan reduction failed: {reason}"
  | parse fault =>
    let reason := fault.message
    s!"parse error: {reason}"
  | missingEntry row column => s!"table has no entry {row}, {column}"
  | sweepUnfinished => "nilpotent sweep did not end"

theorem exists_eq_ok_of_isOk {ε α : Type} {x : Except ε α} (h : x.isOk = true) :
    ∃ a, x = .ok a := by
  rcases x with e | a
  · cases h
  · exact ⟨a, rfl⟩

theorem mapM_eq_pure {A B : Type} {M : Type → Type} [Monad M] [LawfulMonad M] {f : A → M B}
    {g : A → B} {xs : List A} (h : ∀ x ∈ xs, f x = pure (g x)) : xs.mapM f = pure (xs.map g) := by
  induction xs with
  | nil => rfl
  | cons x xs ih =>
    obtain ⟨hx, hxs⟩ := List.forall_mem_cons.1 h
    simp [List.mapM_cons, hx, ih hxs]

end LieNormalForm
