import LieNormalForm.Stored.Read

/-!
# Writing stored values

Structures are written as records. What is read from a written value is the value again, as
long as its numbers are finite and its counts and exponents small enough to be stored; a
number that is not finite has no stored form and leaves an empty place.
-/

namespace LieNormalForm

namespace Stored

variable {R : Type}

def ofNat (n : Nat) : Stored R := whole (.ofNat n)

def ofStrategy (s : FormStrategy) : Stored R := text s.name

def ofVariables (vars : Variables) : Stored R := record [("names", list (vars.names.map text))]

theorem readNat_ofNat {n bound : Nat} (h : n ≤ bound) :
    readNat bound (ofNat n : Stored R) = .ok n := by
  simp [readNat, ofNat, h]

theorem readStrategy_ofStrategy (s : FormStrategy) :
    readStrategy (ofStrategy s : Stored R) = .ok s := by
  cases s <;> rfl

theorem readVariables_ofVariables (vars : Variables) :
    readVariables (ofVariables vars : Stored R) = .ok vars := by
  have h : readItems readText (vars.names.map text : List (Stored R)) = .ok vars.names :=
    readItems_map fun _ _ => rfl
  show (readItems readText (vars.names.map text : List (Stored R))).map Variables.mk = .ok vars
  rw [h]
  rfl

variable [RealNumber R]

/-- A real number; one that differs from itself by something else than zero is not finite. -/
def ofReal (x : R) : Stored R := if x - x == 0 then real x else null

def ofSettings (s : JordanSettings R) : Stored R := record [("tolerance", ofReal s.tolerance)]

theorem readSettings_ofSettings (s : JordanSettings R)
    (h : (s.tolerance - s.tolerance == 0) = true) : readSettings (ofSettings s) = .ok s := by
  simp [readSettings, ofSettings, ofReal, h, field?, required, readReal, Except.map]

variable {C : Type}

/-- The stored form of a zero test; a test by a function has none. -/
def ofTest? : ResonanceTest C R → Option (Stored R)
  | .exact => some (record [("kind", text "exact")])
  | .tolerance epsilon => some (record [("kind", text "tolerance"), ("epsilon", ofReal epsilon)])
  | .custom _ => none

def ofOptions? (o : NormalFormOptions C R) : Option (Stored R) :=
  (ofTest? o.resonanceTest).map fun test =>
    record [("resonance_test", test), ("form_strategy", ofStrategy o.formStrategy)]

variable [ComplexNumber C R]

/-- A complex number by its two parts. -/
def ofCoefficient (c : C) : Stored R :=
  list [ofReal (ComplexNumber.re c), ofReal (ComplexNumber.im c)]

/-- A complex number as a record of its two parts. -/
def ofParts (c : C) : Stored R :=
  record [("re", ofReal (ComplexNumber.re c)), ("im", ofReal (ComplexNumber.im c))]

def ofTerm (t : Term C) : Stored R := list [list (t.1.map ofNat), ofCoefficient t.2]

def ofPoly (p : Poly C) : Stored R :=
  record [("nvars", ofNat p.toForm.nvars), ("terms", list (p.toForm.terms.map ofTerm))]

def ofTuple (f : Tuple C) : Stored R :=
  record [("nvars", ofNat f.toForm.nvars), ("components", list (f.toForm.components.map ofPoly))]

end Stored

end LieNormalForm
