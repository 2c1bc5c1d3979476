import LieNormalForm.Poly.Basic
import LieNormalForm.Variables

/-!
# Written polynomials

Terms are written from the highest degree down, within a degree in reverse order. A minus
sign is pulled out of real and of purely imaginary coefficients; a coefficient one is
left out in front of variables; other complex coefficients stand in parentheses.
-/

namespace LieNormalForm

variable {C R : Type} [RealNumber R] [Numeral R] [ComplexNumber C R]

open ComplexNumber (re im)

/-- A complex number as its real part, a sign, and its imaginary part. -/
def complexText (c : C) : String :=
  if RealNumber.lt (im c) 0 then
    Numeral.plain (re c) ++ "-" ++ Numeral.plain (-im c) ++ "i"
  else Numeral.plain (re c) ++ "+" ++ Numeral.plain (im c) ++ "i"

/-- The minus sign of a negative real or negative imaginary number. -/
def pullsSign (c : C) : Bool :=
  (im c == 0 && RealNumber.lt (re c) 0) || (re c == 0 && RealNumber.lt (im c) 0)

/-- A coefficient without the sign pulled out of it. -/
def magnitude (c : C) : C := if pullsSign c then -c else c

/-- The number exactly one. -/
def isUnit (c : C) : Bool := re c == 1 && im c == 0

/-- A number as a factor that the expression reader takes back. -/
def coefficientText (c : C) : String :=
  if im c == 0 then Numeral.plain (re c)
  else if re c == 0 then
    if im c == 1 then "I" else Numeral.plain (im c) ++ "*I"
  else if RealNumber.lt (im c) 0 then
    "(" ++ Numeral.plain (re c) ++ " - " ++ Numeral.plain (-im c) ++ "*I)"
  else "(" ++ Numeral.plain (re c) ++ " + " ++ Numeral.plain (im c) ++ "*I)"

/-- A variable with its exponent, nothing for exponent zero. -/
def factorText (vars : Variables) (k e : Nat) : Option String :=
  if e = 0 then none
  else if e = 1 then some (vars.nameOf k)
  else some (vars.nameOf k ++ "^" ++ toString e)

namespace Monomial

/-- The variables of a monomial that occur, first variable first. -/
def factors (vars : Variables) (m : Monomial) : List String :=
  (m.mapIdx fun k e => factorText vars k e).filterMap id

/-- The order of writing: the higher degree first, within a degree the later monomial. -/
def writtenBefore (m k : Monomial) : Bool :=
  if m.degree = k.degree then !(order m k == .lt) else k.degree < m.degree

end Monomial

/-- A term without its sign. -/
def termText (vars : Variables) (t : Term C) : String :=
  let c := magnitude t.2
  let factors := t.1.factors vars
  if factors.isEmpty then coefficientText c
  else if isUnit c then "*".intercalate factors
  else coefficientText c ++ "*" ++ "*".intercalate factors

/-- A term behind others, with its sign. -/
def laterTermText (vars : Variables) (t : Term C) : String :=
  (if pullsSign t.2 then " - " else " + ") ++ termText vars t

namespace Poly

/-- The text of a polynomial in named variables. -/
def render (vars : Variables) (p : Poly C) : String :=
  match p.terms.mergeSort fun s t => Monomial.writtenBefore s.1 t.1 with
  | [] => "0"
  | t :: ts =>
    (if pullsSign t.2 then "-" else "") ++ termText vars t
      ++ String.join (ts.map (laterTermText vars))

end Poly

end LieNormalForm
