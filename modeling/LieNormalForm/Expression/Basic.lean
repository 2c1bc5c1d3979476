import LieNormalForm.Scalar

/-!
# Expressions

The trees that polynomial texts are read into.
-/

namespace LieNormalForm

/-- The signs between two operands; `other` is any sign that has no meaning. -/
inductive Operator
  | add | sub | mul | div | pow
  | other (symbol : Char)
deriving DecidableEq

def Operator.ofSymbol : Char → Operator
  | '+' => add
  | '-' => sub
  | '*' => mul
  | '/' => div
  | '^' => pow
  | c => other c

def Operator.symbol : Operator → Char
  | add => '+'
  | sub => '-'
  | mul => '*'
  | div => '/'
  | pow => '^'
  | other c => c

theorem Operator.ofSymbol_symbol (c : Char) : (ofSymbol c).symbol = c := by
  unfold ofSymbol
  split <;> rfl

inductive Expression (R : Type)
  | number (value : R)
  | identifier (name : String)
  | negate (inner : Expression R)
  | call (function : String) (argument : Expression R)
  | binary (op : Operator) (left right : Expression R)

end LieNormalForm
