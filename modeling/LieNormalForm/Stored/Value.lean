import LieNormalForm.Error

/-!
# Stored values

The data that polynomials and options are stored as: whole and real numbers, texts, lists and
records. Whole numbers are kept apart from real ones, because a count is never read from a
real number. The readers here fail without a reason; only a value of the right kind but the
wrong shape has one.
-/

namespace LieNormalForm

inductive Stored (R : Type)
  | null
  | truth (value : Bool)
  | whole (value : Int)
  | real (value : R)
  | text (value : String)
  | list (items : List (Stored R))
  | record (fields : List (String × Stored R))

/-- Why a stored value is refused. -/
inductive StoredError
  /-- It is not of the expected form. -/
  | malformed
  /-- It has the form, but what it describes does not fit together. -/
  | refused (cause : Error)
deriving DecidableEq

namespace Stored

variable {R α : Type}

/-- A value by its name in a record. -/
def field? (name : String) (fields : List (String × Stored R)) : Option (Stored R) :=
  (fields.find? fun f => f.1 == name).map Prod.snd

/-- A value that has to be there. -/
def required (read : Stored R → Except StoredError α) : Option (Stored R) → Except StoredError α
  | none => .error .malformed
  | some v => read v

/-- A value that stands for `standard` if it is left out. -/
def optional (standard : α) (read : Stored R → Except StoredError α) :
    Option (Stored R) → Except StoredError α
  | none => .ok standard
  | some v => read v

/-- A natural number up to a bound. -/
def readNat (bound : Nat) : Stored R → Except StoredError Nat
  | whole (.ofNat n) => if n ≤ bound then .ok n else .error .malformed
  | _ => .error .malformed

def readText : Stored R → Except StoredError String
  | text s => .ok s
  | _ => .error .malformed

/-- The items of a list, each read in turn. -/
def readItems (read : Stored R → Except StoredError α) :
    List (Stored R) → Except StoredError (List α)
  | [] => .ok []
  | v :: vs =>
    match read v with
    | .error e => .error e
    | .ok a =>
      match readItems read vs with
      | .error e => .error e
      | .ok rest => .ok (a :: rest)

def readList (read : Stored R → Except StoredError α) : Stored R → Except StoredError (List α)
  | list items => readItems read items
  | _ => .error .malformed

/-- A result whose error is the reason for a refusal. -/
def accept : Except Error α → Except StoredError α
  | .ok a => .ok a
  | .error cause => .error (.refused cause)

theorem readItems_length {read : Stored R → Except StoredError α} {vs : List (Stored R)}
    {as : List α} (h : readItems read vs = .ok as) : as.length = vs.length := by
  induction vs generalizing as with
  | nil => cases h; rfl
  | cons v vs ih =>
    simp only [readItems] at h
    split at h
    · cases h
    · split at h
      · cases h
      · rename_i rest hrest
        cases h
        simp [ih hrest]

/-- What is written item by item is read back item by item. -/
theorem readItems_map {read : Stored R → Except StoredError α} {write : α → Stored R}
    {as : List α} (h : ∀ a ∈ as, read (write a) = .ok a) :
    readItems read (as.map write) = .ok as := by
  induction as with
  | nil => rfl
  | cons a as ih =>
    simp only [List.map_cons, readItems, h a (List.mem_cons_self ..)]
    rw [ih fun b hb => h b (List.mem_cons_of_mem _ hb)]

end Stored

end LieNormalForm
