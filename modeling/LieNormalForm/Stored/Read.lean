import LieNormalForm.Jordan.Reduction
import LieNormalForm.NormalForm
import LieNormalForm.Stored.Form
import LieNormalForm.Stored.Value

/-!
# Reading stored values

A structure is stored as a record or as the list of its fields in their order. Further
fields of a record are ignored, further items of a list are not. The fields of a record are
read in the order of their names.
-/

namespace LieNormalForm

namespace Stored

variable {C R : Type}

/-- The largest number of variables that can be stored. -/
def largestCount : Nat := 18446744073709551615

/-- The largest exponent that can be stored. -/
def largestExponent : Nat := 4294967295

/-- Names of variables, as they are stored. -/
def readVariables : Stored R → Except StoredError Variables
  | list [names] => (readList readText names).map Variables.mk
  | record fields => (required (readList readText) (field? "names" fields)).map Variables.mk
  | _ => .error .malformed

/-- A strategy by its exact name. -/
def readStrategy : Stored R → Except StoredError FormStrategy
  | text name => named name
  | record [(name, null)] => named name
  | _ => .error .malformed
where
  /-- The strategy of a name. -/
  named (name : String) : Except StoredError FormStrategy :=
    if name = FormStrategy.semisimple.name then .ok .semisimple
    else if name = FormStrategy.nilpotent.name then .ok .nilpotent
    else .error .malformed

variable [RealNumber R]

/-- A real number, also from a whole one. -/
def readReal : Stored R → Except StoredError R
  | whole (.ofNat n) => .ok (Weight.ofNat n)
  | whole (.negSucc n) => .ok (-Weight.ofNat (n + 1))
  | real x => .ok x
  | _ => .error .malformed

/-- The settings of a reduction. -/
def readSettings : Stored R → Except StoredError (JordanSettings R)
  | list [tolerance] => (readReal tolerance).map JordanSettings.mk
  | record fields => (required readReal (field? "tolerance" fields)).map JordanSettings.mk
  | _ => .error .malformed

/-- A zero test by the name of its kind. -/
def readTest : Stored R → Except StoredError (ResonanceTest C R)
  | list [text "exact"] => .ok .exact
  | list [text "tolerance", epsilon] => (readReal epsilon).map .tolerance
  | record fields =>
    match field? "kind" fields with
    | some (text "exact") => .ok .exact
    | some (text "tolerance") => (required readReal (field? "epsilon" fields)).map .tolerance
    | _ => .error .malformed
  | _ => .error .malformed

/-- Options; what is left out takes its standard value. -/
def readOptions : Stored R → Except StoredError (NormalFormOptions C R)
  | list [] => readFields none none
  | list [test] => readFields (some test) none
  | list [test, strategy] => readFields (some test) (some strategy)
  | record fields => readFields (field? "resonance_test" fields) (field? "form_strategy" fields)
  | _ => .error .malformed
where
  /-- The zero test and the strategy. -/
  readFields (test strategy : Option (Stored R)) :
      Except StoredError (NormalFormOptions C R) :=
    match optional .exact readTest test with
    | .error e => .error e
    | .ok resonanceTest =>
      match optional .semisimple readStrategy strategy with
      | .error e => .error e
      | .ok formStrategy => .ok ⟨resonanceTest, formStrategy⟩

variable [ComplexNumber C R]

/-- A complex number, stored as the list of its two parts. -/
def readCoefficient : Stored R → Except StoredError C
  | list [a, b] =>
    match readReal a with
    | .error e => .error e
    | .ok re =>
      match readReal b with
      | .error e => .error e
      | .ok im => .ok (ComplexNumber.ofParts re im)
  | _ => .error .malformed

/-- A term, stored as the list of its exponents and its coefficient. -/
def readTerm : Stored R → Except StoredError (Term C)
  | list [a, b] =>
    match readList (readNat largestExponent) a with
    | .error e => .error e
    | .ok m =>
      match readCoefficient b with
      | .error e => .error e
      | .ok c => .ok (m, c)
  | _ => .error .malformed

def readPolyForm : Stored R → Except StoredError (PolyForm C)
  | list [n, ts] => readFields (some n) (some ts)
  | record fields => readFields (field? "nvars" fields) (field? "terms" fields)
  | _ => .error .malformed
where
  /-- The number of variables and the terms. -/
  readFields (n ts : Option (Stored R)) : Except StoredError (PolyForm C) :=
    match required (readNat largestCount) n with
    | .error e => .error e
    | .ok nvars =>
      match required (readList readTerm) ts with
      | .error e => .error e
      | .ok terms => .ok ⟨nvars, terms⟩

/-- A polynomial. -/
def readPoly (v : Stored R) : Except StoredError (Poly C) :=
  match readPolyForm v with
  | .error e => .error e
  | .ok form => accept form.toPoly

def readTupleForm : Stored R → Except StoredError (TupleForm C)
  | record fields =>
    match required (readList readPoly) (field? "components" fields) with
    | .error e => .error e
    | .ok components =>
      match required (readNat largestCount) (field? "nvars" fields) with
      | .error e => .error e
      | .ok nvars => .ok ⟨nvars, components⟩
  | list (n :: ps :: rest) =>
    match readNat largestCount n with
    | .error e => .error e
    | .ok nvars =>
      match readList readPoly ps with
      | .error e => .error e
      | .ok components => if rest.isEmpty then .ok ⟨nvars, components⟩ else .error .malformed
  | _ => .error .malformed

/-- A tuple of polynomials. -/
def readTuple (v : Stored R) : Except StoredError (Tuple C) :=
  match readTupleForm v with
  | .error e => .error e
  | .ok form => accept form.toTuple

end Stored

end LieNormalForm
