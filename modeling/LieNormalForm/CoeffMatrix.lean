import LieNormalForm.Scalar

/-!
# Matrices of coefficients

Rectangular matrices by rows. `entry` reads zero outside the matrix.
-/

namespace LieNormalForm

structure CoeffMatrix (C : Type) where
  nrows : Nat
  ncols : Nat
  rows : List (List C)
deriving BEq

namespace CoeffMatrix

variable {C W : Type}

def ofFn (nrows ncols : Nat) (f : Nat → Nat → C) : CoeffMatrix C :=
  ⟨nrows, ncols, (List.range nrows).map fun i => (List.range ncols).map fun j => f i j⟩

/-- A matrix given by its rows; without rows it has no columns either. -/
def ofRows (rows : List (List C)) : CoeffMatrix C :=
  ⟨rows.length, (rows.head?.map List.length).getD 0, rows⟩

variable [Coefficient C W]

def entry (m : CoeffMatrix C) (i j : Nat) : C := (m.rows.getD i []).getD j 0

def column (m : CoeffMatrix C) (j : Nat) : List C := (List.range m.nrows).map fun i => m.entry i j

/-- A square or rectangular matrix with the given columns. -/
def ofColumns (nrows : Nat) (columns : List (List C)) : CoeffMatrix C :=
  ofFn nrows columns.length fun i j => (columns.getD j []).getD i 0

def identity (n : Nat) : CoeffMatrix C := ofFn n n fun i j => if i = j then 1 else 0

def mul (a b : CoeffMatrix C) : CoeffMatrix C :=
  ofFn a.nrows b.ncols fun i j =>
    Coefficient.sum ((List.range a.ncols).map fun k => a.entry i k * b.entry k j)

/-- The matrix minus a multiple of the identity. -/
def shift (a : CoeffMatrix C) (c : C) : CoeffMatrix C :=
  ofFn a.nrows a.ncols fun i j => a.entry i j - (if i = j then 1 else 0) * c

/-- All entries, column after column. -/
def entries (m : CoeffMatrix C) : List C :=
  (List.range m.ncols).flatMap fun j => m.column j

/-- The square matrix differs from the identity by at most the tolerance in every entry. -/
def isNearIdentity {R : Type} [RealNumber R] [Normed C R] (m : CoeffMatrix C) (tolerance : R) :
    Bool :=
  m.nrows == m.ncols && (List.range m.nrows).all fun i => (List.range m.ncols).all fun j =>
    RealNumber.le (Normed.norm (m.entry i j - if i = j then 1 else 0)) tolerance

theorem ofFn_entry (f : Nat → Nat → C) {nrows ncols i j : Nat} (hi : i < nrows) (hj : j < ncols) :
    (ofFn nrows ncols f).entry i j = f i j := by
  simp [ofFn, entry, hi, hj]

theorem ofFn_nrows (nrows ncols : Nat) (f : Nat → Nat → C) : (ofFn nrows ncols f).nrows = nrows :=
  rfl

theorem ofFn_ncols (nrows ncols : Nat) (f : Nat → Nat → C) : (ofFn nrows ncols f).ncols = ncols :=
  rfl

theorem identity_entry {n i j : Nat} (hi : i < n) (hj : j < n) :
    (identity n : CoeffMatrix C).entry i j = if i = j then 1 else 0 := ofFn_entry _ hi hj

theorem mul_entry (a b : CoeffMatrix C) {i j : Nat} (hi : i < a.nrows) (hj : j < b.ncols) :
    (a.mul b).entry i j =
      Coefficient.sum ((List.range a.ncols).map fun k => a.entry i k * b.entry k j) :=
  ofFn_entry _ hi hj

end CoeffMatrix

end LieNormalForm
