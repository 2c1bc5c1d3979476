import LieNormalForm.Error

/-!
# Tables filled by anti-diagonals

A table of entries `F[i,m]`. Entries of one anti-diagonal `i + m = n` are filled from the
first row on, so each finds the entries of earlier anti-diagonals and of earlier rows.
Asking for an entry that was never filled in is an error of its own.
-/

namespace LieNormalForm

/-- Row by row the entries by column, where there is one. -/
structure GradedTable (E : Type) where
  rows : Array (Array (Option E))

namespace GradedTable

variable {E : Type}

def empty : GradedTable E := ⟨#[]⟩

def get? (t : GradedTable E) (i m : Nat) : Option E := (t.rows.getD i #[]).getD m none

/-- The entry in row `i` and column `m`. -/
def get (t : GradedTable E) (i m : Nat) : Except Error E :=
  match t.get? i m with
  | some e => .ok e
  | none => .error (.missingEntry i m)

/-- Puts a value at a place of an array, the places before it filled up with a default. -/
def putAt {A : Type} (xs : Array A) (k : Nat) (default x : A) : Array A :=
  if h : k < xs.size then xs.set k x h else (xs ++ Array.replicate (k - xs.size) default).push x

def insert (t : GradedTable E) (i m : Nat) (e : E) : GradedTable E :=
  ⟨putAt t.rows i #[] (putAt (t.rows.getD i #[]) m none (some e))⟩

/-- Changes every entry on the anti-diagonal `n`. -/
def mapDiagonal (t : GradedTable E) (n : Nat) (f : E → E) : GradedTable E :=
  ⟨t.rows.mapIdx fun i row => row.mapIdx fun m e => if i + m = n then e.map f else e⟩

/-- Fills the rows `1, …, count` of the anti-diagonal `n`; `next t i m` computes the entry in
row `i + 1` and column `m`. -/
def fillRows (next : GradedTable E → Nat → Nat → Except Error E) (n : Nat) :
    Nat → GradedTable E → Except Error (GradedTable E)
  | 0, t => .ok t
  | i + 1, t =>
    match fillRows next n i t with
    | .error e => .error e
    | .ok t' =>
      match next t' i (n - (i + 1)) with
      | .error e => .error e
      | .ok entry => .ok (t'.insert (i + 1) (n - (i + 1)) entry)

/-- The entries of the first column, from row `0` on. -/
def firstColumn (t : GradedTable E) : Nat → Except Error (List E)
  | 0 => .ok []
  | i + 1 =>
    match t.firstColumn i with
    | .error e => .error e
    | .ok above =>
      match t.get i 0 with
      | .error e => .error e
      | .ok entry => .ok (above ++ [entry])

theorem putAt_getD {A : Type} (xs : Array A) (k j : Nat) (d x : A) :
    (putAt xs k d x).getD j d = if j = k then x else xs.getD j d := by
  simp only [putAt, Array.getD_eq_getD_getElem?]
  split <;> grind

theorem get?_empty (i m : Nat) : (empty : GradedTable E).get? i m = none := by
  simp [empty, get?]

theorem get?_insert (t : GradedTable E) (i m j k : Nat) (e : E) :
    (t.insert i m e).get? j k = if j = i ∧ k = m then some e else t.get? j k := by
  simp only [insert, get?, putAt_getD]
  by_cases hj : j = i
  · subst hj
    rw [if_pos rfl, putAt_getD]
    simp only [true_and]
  · simp only [hj, if_false, false_and]

theorem get?_insert_self (t : GradedTable E) (i m : Nat) (e : E) :
    (t.insert i m e).get? i m = some e := by
  simp [get?_insert]

theorem get?_insert_of_ne (t : GradedTable E) {i m j k : Nat} (e : E) (h : (i, m) ≠ (j, k)) :
    (t.insert i m e).get? j k = t.get? j k := by
  rw [get?_insert, if_neg]
  rintro ⟨rfl, rfl⟩
  exact h rfl

theorem get?_mapDiagonal (t : GradedTable E) (n : Nat) (f : E → E) (i m : Nat) :
    (t.mapDiagonal n f).get? i m = if i + m = n then (t.get? i m).map f else t.get? i m := by
  simp only [mapDiagonal, get?, Array.getD_eq_getD_getElem?, Array.getElem?_mapIdx]
  cases hrow : t.rows[i]? with
  | none => simp
  | some row =>
    simp only [Option.map_some, Option.getD_some, Array.getElem?_mapIdx]
    cases row[m]? <;> simp

theorem get_ok_iff (t : GradedTable E) (i m : Nat) (e : E) :
    t.get i m = .ok e ↔ t.get? i m = some e := by
  unfold get
  split <;> simp_all

theorem firstColumn_length {t : GradedTable E} {count : Nat} {column : List E}
    (h : t.firstColumn count = .ok column) : column.length = count := by
  induction count generalizing column with
  | zero => cases h; rfl
  | succ i ih =>
    simp only [firstColumn] at h
    split at h
    · cases h
    · rename_i above habove
      split at h
      · cases h
      · cases h
        simp [ih habove]

end GradedTable

end LieNormalForm
