import LieNormalForm.Error
import LieNormalForm.Poly.Cursor

/-!
# Polynomials

A polynomial is the number of its variables and the increasing list of its nonzero terms.
Sums go through `mergeTerms`, so a coefficient that cancels disappears; products add up
the rows `c·x^α·q`, one for each term of the first factor.
-/

namespace LieNormalForm

/-- A polynomial in `nvars` variables; `terms` is increasing and holds no zero. -/
structure Poly (C : Type) where
  nvars : Nat
  terms : List (Term C)
deriving BEq

namespace Poly

variable {C W : Type} [Coefficient C W]

def zero (n : Nat) : Poly C := ⟨n, []⟩

/-- Adds `c·x^α`. -/
def addTerm (p : Poly C) (m : Monomial) (c : C) : Poly C :=
  ⟨p.nvars, mergeTerms p.terms [(m, c)]⟩

/-- The polynomial `c·x^α`, zero if the coefficient is. -/
def ofTerm (m : Monomial) (c : C) : Poly C := (zero m.length).addTerm m c

def constant (n : Nat) (c : C) : Poly C := ofTerm (Monomial.one n) c

/-- The coordinate function `x_k`. -/
def coordinate (n k : Nat) : Poly C := ofTerm (Monomial.coordinate n k) 1

/-- Adds terms one by one; an exponent list of the wrong length ends the sum. -/
def addTerms (p : Poly C) : List (Term C) → Except Error (Poly C)
  | [] => .ok p
  | (m, c) :: ts =>
    if m.length = p.nvars then addTerms (p.addTerm m c) ts
    else .error (.shape .monomialExponents p.nvars m.length)

/-- The sum of terms in any order, repeats added up in the order of the list. -/
def ofTerms (n : Nat) (ts : List (Term C)) : Except Error (Poly C) := addTerms (zero n) ts

def isZero (p : Poly C) : Bool := p.terms.isEmpty

/-- The number of stored terms. -/
def size (p : Poly C) : Nat := p.terms.length

/-- The coefficient in front of `x^α`, zero if there is no such term. -/
def coefficient (p : Poly C) (m : Monomial) : C :=
  ((p.terms.find? fun t => t.1 == m).map Prod.snd).getD 0

/-- The polynomial without its term at `x^α`. -/
def removeTerm (p : Poly C) (m : Monomial) : Poly C :=
  ⟨p.nvars, p.terms.filter fun t => !(t.1 == m)⟩

def add (p q : Poly C) : Poly C := ⟨p.nvars, mergeTerms p.terms q.terms⟩

def neg (p : Poly C) : Poly C := ⟨p.nvars, p.terms.map fun t => (t.1, -t.2)⟩

def sub (p q : Poly C) : Poly C := p.add q.neg

instance : Add (Poly C) := ⟨add⟩
instance : Sub (Poly C) := ⟨sub⟩
instance : Neg (Poly C) := ⟨neg⟩

/-- Every coefficient times `c`. -/
def scale (p : Poly C) (c : C) : Poly C :=
  if Coefficient.isZero c then zero p.nvars
  else ⟨p.nvars, nonzeroTerms (p.terms.map fun t => (t.1, t.2 * c))⟩

/-- Largest total degree of a term, none for the zero polynomial. -/
def degree? (p : Poly C) : Option Nat := (p.terms.map fun t => Monomial.degree t.1).max?

def minDegree? (p : Poly C) : Option Nat := (p.terms.map fun t => Monomial.degree t.1).min?

/-- The value of a polynomial without variables. -/
def asConstant? (p : Poly C) : Option C :=
  match p.degree? with
  | none => some 0
  | some 0 => some (p.coefficient (Monomial.one p.nvars))
  | some _ => none

def filterTerms (p : Poly C) (keep : Monomial → Bool) : Poly C :=
  ⟨p.nvars, p.terms.filter fun t => keep t.1⟩

/-- The part of total degree `d`. -/
def homogeneousPart (p : Poly C) (d : Nat) : Poly C := p.filterTerms fun m => m.degree == d

/-- The terms of total degree at most `d`. -/
def truncate (p : Poly C) (d : Nat) : Poly C := p.filterTerms fun m => m.degree ≤ d

/-- Whether a total degree stays within an optional limit. -/
def within (limit : Option Nat) (d : Nat) : Bool :=
  match limit with
  | none => true
  | some l => d ≤ l

/-- The terms of `c·x^α·q` whose degree stays within the limit. -/
def row (x : Term C) (limit : Option Nat) (q : List (Term C)) : List (Term C) :=
  let d := x.1.degree
  (q.filter fun y => within limit (d + y.1.degree)).map fun y => (x.1.product y.1, x.2 * y.2)

/-- The product without the terms above the limit. -/
def mulWithin (p q : Poly C) (limit : Option Nat) : Poly C :=
  ⟨p.nvars, (p.terms.foldl (fun c x => c.addRow (row x limit q.terms)) TermCursor.empty).toList⟩

def mul (p q : Poly C) : Poly C := p.mulWithin q none

instance : Mul (Poly C) := ⟨mul⟩

/-- Multiplies `base ^ e` into `result` along the binary digits of `e`, within `budget` of them. -/
def powLoop : Nat → Nat → Poly C → Poly C → Poly C
  | 0, _, result, _ => result
  | budget + 1, e, result, base =>
    if e = 0 then result
    else
      let result' := if e % 2 = 1 then result * base else result
      if e / 2 = 0 then result' else powLoop budget (e / 2) result' (base * base)

/-- Natural powers by repeated squaring. -/
def pow (p : Poly C) (e : Nat) : Poly C := powLoop e e (constant p.nvars 1) p

/-- The partial derivative by variable `k`. -/
def derivative (p : Poly C) (k : Nat) : Poly C :=
  ⟨p.nvars, nonzeroTerms (p.terms.filterMap fun t =>
    (t.1.lower? k).map fun m => (m, Coefficient.mulNat t.2 (t.1.exponent k)))⟩

/-- The value at a point; coordinates beyond either list are left out. -/
def evaluate (p : Poly C) (point : List C) : C :=
  Coefficient.sum <| p.terms.map fun t =>
    (List.zip t.1 point).foldl (fun acc ex => acc * Coefficient.power ex.2 ex.1) t.2

theorem zero_terms (n : Nat) : (zero n : Poly C).terms = [] := rfl

theorem addTerm_nvars (p : Poly C) (m : Monomial) (c : C) : (p.addTerm m c).nvars = p.nvars := rfl

theorem addTerm_terms (p : Poly C) (m : Monomial) (c : C) :
    (p.addTerm m c).terms = insertTerm (m, c) p.terms := mergeTerms_singleton _ _

theorem ofTerm_nvars (m : Monomial) (c : C) : (ofTerm m c).nvars = m.length := rfl

theorem constant_nvars (n : Nat) (c : C) : (constant n c).nvars = n := by
  simp [constant, ofTerm_nvars, Monomial.one_length]

theorem coordinate_nvars (n k : Nat) : (coordinate n k : Poly C).nvars = n := by
  simp [coordinate, ofTerm_nvars, Monomial.coordinate_length]

theorem addTerms_nvars {p q : Poly C} {ts : List (Term C)} (h : p.addTerms ts = .ok q) :
    q.nvars = p.nvars := by
  induction ts generalizing p with
  | nil => cases h; rfl
  | cons t ts ih =>
    simp only [addTerms] at h
    split at h
    · have := ih h
      exact this
    · cases h

theorem add_nvars (p q : Poly C) : (p + q).nvars = p.nvars := rfl

theorem neg_nvars (p : Poly C) : (-p).nvars = p.nvars := rfl

theorem sub_nvars (p q : Poly C) : (p - q).nvars = p.nvars := rfl

theorem sub_eq_add_neg (p q : Poly C) : p - q = p + -q := rfl

theorem scale_nvars (p : Poly C) (c : C) : (p.scale c).nvars = p.nvars := by
  unfold scale
  split <;> rfl

theorem row_none (x : Term C) (ts : List (Term C)) :
    row x none ts = ts.map fun y => (x.1.product y.1, x.2 * y.2) := by
  have hall : (ts.filter fun y => within none (x.1.degree + y.1.degree)) = ts :=
    List.filter_eq_self.2 fun _ _ => rfl
  rw [row, hall]

/-- A product adds up its rows in the order of the terms of the first factor. -/
theorem mulWithin_terms (p q : Poly C) (limit : Option Nat) :
    (p.mulWithin q limit).terms =
      p.terms.foldl (fun acc x => mergeTerms acc (row x limit q.terms)) [] :=
  TermCursor.foldl_addRow_toList (fun x => row x limit q.terms) p.terms TermCursor.empty_correct

theorem mul_nvars (p q : Poly C) : (p * q).nvars = p.nvars := rfl

theorem mul_eq_mulWithin (p q : Poly C) : p * q = p.mulWithin q none := rfl

theorem powLoop_nvars (budget e : Nat) (result base : Poly C) :
    (powLoop budget e result base).nvars = result.nvars := by
  induction budget generalizing e result base with
  | zero => rfl
  | succ budget ih =>
    simp only [powLoop]
    split
    · rfl
    · split
      · split <;> rfl
      · rw [ih]
        split <;> rfl

theorem pow_nvars (p : Poly C) (e : Nat) : (p.pow e).nvars = p.nvars := by
  rw [pow, powLoop_nvars, constant_nvars]

theorem isZero_iff (p : Poly C) : p.isZero = true ↔ p.terms = [] := List.isEmpty_iff

theorem zero_mulWithin (n : Nat) (q : Poly C) (limit : Option Nat) :
    (zero n).mulWithin q limit = zero n := rfl

end Poly

end LieNormalForm
