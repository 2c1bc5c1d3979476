import LieNormalForm.Tuple.Basic

/-!
# Stored forms

A polynomial is stored as the list of its terms and a tuple as the list of its components. A
form may hold terms in any order, repeated or zero; taking it back checks its shape and
brings the terms into order.
-/

namespace LieNormalForm

/-- A number of variables with a list of terms. -/
structure PolyForm (C : Type) where
  nvars : Nat
  terms : List (Term C)

/-- A number of variables with a list of polynomials. -/
structure TupleForm (C : Type) where
  nvars : Nat
  components : List (Poly C)

variable {C W : Type} [Coefficient C W]

/-- The stored form of a polynomial. -/
def Poly.toForm (p : Poly C) : PolyForm C := ⟨p.nvars, p.terms⟩

/-- The polynomial of a stored form, refused if an exponent list has the wrong length. -/
def PolyForm.toPoly (f : PolyForm C) : Except Error (Poly C) := Poly.ofTerms f.nvars f.terms

/-- The stored form of a tuple. -/
def Tuple.toForm (f : Tuple C) : TupleForm C := ⟨f.nvars, f.components⟩

/-- The tuple of a stored form, refused if a component has other variables. -/
def TupleForm.toTuple (f : TupleForm C) : Except Error (Tuple C) :=
  Tuple.ofComponents f.nvars f.components

theorem PolyForm.toPoly_nvars {f : PolyForm C} {p : Poly C} (h : f.toPoly = .ok p) :
    p.nvars = f.nvars := Poly.addTerms_nvars h

end LieNormalForm
