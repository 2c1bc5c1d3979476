import LieNormalForm.Expression.Basic
import LieNormalForm.Expression.Token

/-!
# The expression parser

The grammar, from the loosest level to the tightest:

* a sum is a product, followed by any number of `+` or `-` and a product, grouped to the left;
* a product is a signed operand, followed by any number of `*` or `/` and a signed operand,
  grouped to the left;
* a signed operand is `-` or `+` and a signed operand, or a power; the plus leaves no trace;
* a power is a primary, alone or with `^` and a signed operand;
* a primary is a number, a name, a name with a sum in parentheses, or a sum in parentheses.

Each reader returns what it read and the tokens after it, with a proof that at least one
token was used; the two tails may use none.
-/

namespace LieNormalForm

namespace Expression

variable {R : Type} [Numeral R]

/-- A tree and the strictly shorter rest behind it. -/
abbrev Parsed (R : Type) (ts : List (Token R)) : Type :=
  Except ParseFault (Expression R × { rest : List (Token R) // rest.length < ts.length })

/-- A tree and the rest behind it, which may be all of the tokens. -/
abbrev Extended (R : Type) (ts : List (Token R)) : Type :=
  Except ParseFault (Expression R × { rest : List (Token R) // rest.length ≤ ts.length })

mutual

def parseSum (ts : List (Token R)) : Parsed R ts :=
  match parseProduct ts with
  | .error fault => .error fault
  | .ok (left, ⟨rest, h⟩) =>
    match sumTail left rest with
    | .error fault => .error fault
    | .ok (e, ⟨rest', h'⟩) => .ok (e, ⟨rest', by omega⟩)
termination_by (ts.length, 4)

def sumTail (left : Expression R) (ts : List (Token R)) : Extended R ts :=
  match ts with
  | .plus :: after =>
    match parseProduct after with
    | .error fault => .error fault
    | .ok (right, ⟨rest, h⟩) =>
      match sumTail (.binary .add left right) rest with
      | .error fault => .error fault
      | .ok (e, ⟨rest', h'⟩) => .ok (e, ⟨rest', by simp only [List.length_cons]; omega⟩)
  | .minus :: after =>
    match parseProduct after with
    | .error fault => .error fault
    | .ok (right, ⟨rest, h⟩) =>
      match sumTail (.binary .sub left right) rest with
      | .error fault => .error fault
      | .ok (e, ⟨rest', h'⟩) => .ok (e, ⟨rest', by simp only [List.length_cons]; omega⟩)
  | ts => .ok (left, ⟨ts, Nat.le_refl _⟩)
termination_by (ts.length, 0)

def parseProduct (ts : List (Token R)) : Parsed R ts :=
  match parseSigned ts with
  | .error fault => .error fault
  | .ok (left, ⟨rest, h⟩) =>
    match productTail left rest with
    | .error fault => .error fault
    | .ok (e, ⟨rest', h'⟩) => .ok (e, ⟨rest', by omega⟩)
termination_by (ts.length, 3)

def productTail (left : Expression R) (ts : List (Token R)) : Extended R ts :=
  match ts with
  | .star :: after =>
    match parseSigned after with
    | .error fault => .error fault
    | .ok (right, ⟨rest, h⟩) =>
      match productTail (.binary .mul left right) rest with
      | .error fault => .error fault
      | .ok (e, ⟨rest', h'⟩) => .ok (e, ⟨rest', by simp only [List.length_cons]; omega⟩)
  | .slash :: after =>
    match parseSigned after with
    | .error fault => .error fault
    | .ok (right, ⟨rest, h⟩) =>
      match productTail (.binary .div left right) rest with
      | .error fault => .error fault
      | .ok (e, ⟨rest', h'⟩) => .ok (e, ⟨rest', by simp only [List.length_cons]; omega⟩)
  | ts => .ok (left, ⟨ts, Nat.le_refl _⟩)
termination_by (ts.length, 0)

def parseSigned (ts : List (Token R)) : Parsed R ts :=
  match ts with
  | .minus :: after =>
    match parseSigned after with
    | .error fault => .error fault
    | .ok (e, ⟨rest, h⟩) => .ok (.negate e, ⟨rest, by simp only [List.length_cons]; omega⟩)
  | .plus :: after =>
    match parseSigned after with
    | .error fault => .error fault
    | .ok (e, ⟨rest, h⟩) => .ok (e, ⟨rest, by simp only [List.length_cons]; omega⟩)
  | ts => parsePower ts
termination_by (ts.length, 2)

def parsePower (ts : List (Token R)) : Parsed R ts :=
  match parsePrimary ts with
  | .error fault => .error fault
  | .ok (base, ⟨.caret :: after, h⟩) =>
    have : after.length < ts.length := by simp only [List.length_cons] at h; omega
    match parseSigned after with
    | .error fault => .error fault
    | .ok (exponent, ⟨rest, h'⟩) =>
      .ok (.binary .pow base exponent, ⟨rest, by omega⟩)
  | .ok (base, rest) => .ok (base, rest)
termination_by (ts.length, 1)

def parsePrimary (ts : List (Token R)) : Parsed R ts :=
  match ts with
  | .number value :: rest => .ok (.number value, ⟨rest, by simp⟩)
  | .name text :: .openParen :: after =>
    match parseSum after with
    | .error fault => .error fault
    | .ok (argument, ⟨.closeParen :: rest, h⟩) =>
      .ok (.call text argument, ⟨rest, by simp only [List.length_cons] at h ⊢; omega⟩)
    | .ok _ => .error .missingParenthesis
  | .name text :: rest => .ok (.identifier text, ⟨rest, by simp⟩)
  | .openParen :: after =>
    match parseSum after with
    | .error fault => .error fault
    | .ok (e, ⟨.closeParen :: rest, h⟩) =>
      .ok (e, ⟨rest, by simp only [List.length_cons] at h ⊢; omega⟩)
    | .ok _ => .error .missingParenthesis
  | token :: _ => .error (.unexpectedToken token.shown)
  | [] => .error .unexpectedEnd
termination_by (ts.length, 0)

end

/-- Reads a list of tokens to its end; `input` is the text for the message about a token that
is left over. -/
def ofTokens (input : String) (ts : List (Token R)) : Except ParseFault (Expression R) :=
  match parseSum ts with
  | .error fault => .error fault
  | .ok (e, ⟨[], _⟩) => .ok e
  | .ok (_, ⟨token :: _, _⟩) => .error (.trailingToken token.shown input)

/-- Reads an expression. -/
def parse (input : String) : Except ParseFault (Expression R) :=
  match Token.scan input.toList with
  | .error fault => .error fault
  | .ok ts => ofTokens input ts

end Expression

end LieNormalForm
