import LieNormalForm.Graded.Series

/-!
# The Lie triangle

A generator `U` acts through the family `w_j = j!·(part of degree j + 2)`. `transform` fills
the triangle from the seeds of its subject and sums up the first column; `invert` finds,
anti-diagonal by anti-diagonal, the subject whose transform is the given target. All
entries of an anti-diagonal depend on its seed with weight one, so the seed is first taken
to be zero and then the whole anti-diagonal is corrected.
-/

namespace LieNormalForm

structure LieTriangle (C : Type) where
  operator : LieOperator
  generators : List (Tuple C)

namespace LieTriangle

variable {C W : Type} [Weight W] [Coefficient C W]

/-- The triangle of a generator, with the parts that matter up to the given order. -/
def ofGenerator (op : LieOperator) (generator : Tuple C) (order : Nat) : LieTriangle C :=
  ⟨op, generator.seeds 2 (order - 1 + 1)⟩

/-- Puts the seed of an anti-diagonal into the table and fills the rest of it. -/
def addDiagonal (L : LieTriangle C) (t : GradedTable (Tuple C)) (n : Nat) (seed : Tuple C) :
    Except Error (GradedTable (Tuple C)) :=
  GradedTable.fillRows (L.operator.recurrence L.generators) n n (t.insert 0 n seed)

/-- The table over the seeds of a subject, `count` anti-diagonals of it. -/
def table (L : LieTriangle C) (subject : Tuple C) :
    Nat → Except Error (GradedTable (Tuple C))
  | 0 => .ok .empty
  | n + 1 =>
    match L.table subject n with
    | .error e => .error e
    | .ok t => L.addDiagonal t n (subject.seed 0 n)

/-- `Σ_{i≤order} F[i,0] / i!` over the table of the subject. -/
def transform (L : LieTriangle C) (subject : Tuple C) (order : Nat) : Except Error (Tuple C) :=
  match L.table subject (order + 1) with
  | .error e => .error e
  | .ok t =>
    match t.firstColumn (order + 1) with
    | .error e => .error e
    | .ok column => .ok (.weightedSum subject column)

/-- A table with the subject that it was found to belong to. -/
structure Inverse (C : Type) where
  table : GradedTable (Tuple C)
  subject : Tuple C

/-- Finds the part of degree `n` of the subject. -/
def invertStep (L : LieTriangle C) (target : Tuple C) (n : Nat) (s : Inverse C) :
    Except Error (Inverse C) :=
  match L.addDiagonal s.table n (.zeros target.size target.nvars) with
  | .error e => .error e
  | .ok t =>
    match t.get n 0 with
    | .error e => .error e
    | .ok reached =>
      let correction := target.seed 0 n - reached
      .ok ⟨t.mapDiagonal n fun f => f + correction,
        s.subject + correction.scaleWeight (Weight.inverseFactorial n)⟩

/-- Finds the parts of the subject below degree `count`. -/
def inverseTable (L : LieTriangle C) (target : Tuple C) : Nat → Except Error (Inverse C)
  | 0 => .ok ⟨.empty, .zeros target.size target.nvars⟩
  | n + 1 =>
    match L.inverseTable target n with
    | .error e => .error e
    | .ok s => L.invertStep target n s

/-- The subject whose transform is the target up to the given order. -/
def invert (L : LieTriangle C) (target : Tuple C) (order : Nat) : Except Error (Tuple C) :=
  match L.inverseTable target (order + 1) with
  | .error e => .error e
  | .ok s => .ok s.subject

theorem invertStep_size {L : LieTriangle C} {target : Tuple C} {n : Nat} {s s' : Inverse C}
    (h : L.invertStep target n s = .ok s') : s'.subject.size = s.subject.size := by
  unfold invertStep at h
  split at h
  · cases h
  · split at h
    · cases h
    · cases h
      exact Tuple.add_size _ _

theorem inverseTable_size {L : LieTriangle C} {target : Tuple C} {count : Nat} {s : Inverse C}
    (h : L.inverseTable target count = .ok s) : s.subject.size = target.size := by
  induction count generalizing s with
  | zero => cases h; exact Tuple.zeros_size _ _
  | succ n ih =>
    simp only [inverseTable] at h
    split at h
    · cases h
    · rename_i s₀ h₀
      rw [invertStep_size h, ih h₀]

theorem invert_size {L : LieTriangle C} {target f : Tuple C} {order : Nat}
    (h : L.invert target order = .ok f) : f.size = target.size := by
  unfold invert at h
  split at h
  · cases h
  · rename_i s hs
    cases h
    exact inverseTable_size hs

theorem transform_size {L : LieTriangle C} {subject f : Tuple C} {order : Nat}
    (h : L.transform subject order = .ok f) : f.size = subject.size := by
  unfold transform at h
  split at h
  · cases h
  · split at h
    · cases h
    · cases h
      exact Tuple.weightedSum_size _ _

end LieTriangle

end LieNormalForm
