import LieNormalForm.Jordan.Algebra
import LieNormalForm.Numeric.Rotation

/-!
# Eigenvalues by shifted rotations

A matrix of at most two rows is solved by the quadratic formula. A larger one is divided by
its largest entry, brought to Hessenberg form, zero below the first subdiagonal, and then
iterated: shift, make triangular by rotations, undo them from the other side, shift back. An
entry of the subdiagonal that has become negligible splits the last eigenvalue off. The
number of steps is bounded, and what counts as negligible grows with the steps that were
spent on one eigenvalue; a triangular matrix keeps its diagonal up to the division.
-/

namespace LieNormalForm

namespace CoeffMatrix

variable {C R : Type} [RealNumber R] [ComplexNumber C R]

/-- The first `n` rows and columns. -/
def leading (m : CoeffMatrix C) (n : Nat) : CoeffMatrix C := ofFn n n fun i j => m.entry i j

/-- The places below the first subdiagonal, column by column, each from the bottom up. -/
def belowSubdiagonal (n : Nat) : List (Nat × Nat) :=
  (List.range n).flatMap fun j => ((List.range n).filter fun i => j + 2 ≤ i).reverse.map fun i => (i, j)

/-- Makes the entry `(i, j)` zero by a rotation with the row above. -/
def clearEntry (m : CoeffMatrix C) (place : Nat × Nat) : CoeffMatrix C :=
  (Rotation.clearing (m.entry (place.1 - 1) place.2) (m.entry place.1 place.2)).similar
    (place.1 - 1) m

/-- A similar matrix with zeros below the first subdiagonal. -/
def hessenberg (m : CoeffMatrix C) : CoeffMatrix C :=
  (belowSubdiagonal m.nrows).foldl clearEntry m

/-- A triangular matrix with the rotations that lead to it. -/
structure Triangular (C R : Type) where
  rotations : List (Rotation C R)
  matrix : CoeffMatrix C

/-- Clears the subdiagonal entry in column `k`. -/
def Triangular.step (t : Triangular C R) (k : Nat) : Triangular C R :=
  let g := Rotation.clearing (t.matrix.entry k k) (t.matrix.entry (k + 1) k)
  ⟨t.rotations ++ [g], g.rows k t.matrix⟩

/-- Makes a Hessenberg matrix triangular by rotations of its rows. -/
def triangularize (m : CoeffMatrix C) : Triangular C R :=
  (List.range (m.nrows - 1)).foldl Triangular.step ⟨[], m⟩

/-- One step of the iteration with a given shift. -/
def shiftedStep (mu : C) (m : CoeffMatrix C) : CoeffMatrix C :=
  let t := triangularize (m.shift mu)
  (t.rotations.zipIdx.foldl (fun m gk => gk.1.columns gk.2 m) t.matrix).shift (-mu)

/-- Of two numbers the one closer to a third. -/
def closer (target a b : C) : C :=
  if RealNumber.le (Normed.norm (a - target)) (Normed.norm (b - target)) then a else b

/-- Half the difference of the eigenvalues of a matrix of two rows, up to sign. -/
def halfGap (a b c d : C) : C :=
  let half := ComplexNumber.shrink (a - d) (Weight.ofNat 2)
  ComplexNumber.sqrt (b * c + half * half)

/-- The eigenvalue of the last two rows and columns that is closer to the last entry. -/
def cornerEigenvalue (m : CoeffMatrix C) : C :=
  let k := m.nrows - 2
  let a := m.entry k k
  let d := m.entry (k + 1) (k + 1)
  let mean := ComplexNumber.shrink (a + d) (Weight.ofNat 2)
  let gap := halfGap a (m.entry k (k + 1)) (m.entry (k + 1) k) d
  closer d (mean + gap) (mean - gap)

/-- The sum of the sizes of both parts. -/
def partsSize (c : C) : R :=
  RealNumber.abs (ComplexNumber.re c) + RealNumber.abs (ComplexNumber.im c)

/-- The eigenvalues of the first two rows and columns: the diagonal after a rotation that
takes an eigenvector to the first axis. -/
def pairSpectrum (m : CoeffMatrix C) : List C :=
  let below := m.entry 1 0
  if Coefficient.isZero below then [m.entry 0 0, m.entry 1 1]
  else
    let a := m.entry 0 0
    let d := m.entry 1 1
    let mean := ComplexNumber.shrink (a + d) (Weight.ofNat 2)
    let gap := halfGap a (m.entry 0 1) below d
    let x := mean + gap - d
    let y := mean - gap - d
    let larger := if RealNumber.lt (partsSize y) (partsSize x) then x else y
    let turned := (Rotation.clearing larger below).similar 0 m
    [turned.entry 0 0, turned.entry 1 1]

/-- The relative size at which an entry of the subdiagonal is negligible. -/
def unitRoundoff : R := RealNumber.decimal 222044604925031308 33

/-- The last row splits off after `steps` steps: its entry on the subdiagonal is negligible
beside its neighbours on the diagonal or, every sixteen steps more so, beside the matrix. -/
def lastSplits (steps : Nat) (m : CoeffMatrix C) : Bool :=
  let k := m.nrows - 1
  let size : R := partsSize (m.entry k (k - 1))
  RealNumber.le size
      (unitRoundoff * (partsSize (m.entry (k - 1) (k - 1)) + partsSize (m.entry k k)))
    || RealNumber.le size (Weight.ofNat (steps / 16) * (unitRoundoff * m.frobenius))

/-- The shift of a step; every tenth step takes the last subdiagonal entry instead. -/
def stepShift (steps : Nat) (m : CoeffMatrix C) : C :=
  if steps % 10 = 9 then
    ComplexNumber.ofReal (Normed.norm (m.entry (m.nrows - 1) (m.nrows - 2)))
  else m.cornerEigenvalue

/-- Splits eigenvalues off the end of a Hessenberg matrix, in front of those already found;
`steps` were spent on the last one so far. -/
def splitWithin : Nat → Nat → CoeffMatrix C → List C → Option (List C)
  | budget, steps, m, found =>
    if m.nrows = 0 then some found
    else if m.nrows = 1 then some (m.entry 0 0 :: found)
    else
      match budget with
      | 0 => none
      | budget + 1 =>
        if m.lastSplits steps then
          splitWithin budget 0 (m.leading (m.nrows - 1))
            (m.entry (m.nrows - 1) (m.nrows - 1) :: found)
        else if m.nrows = 2 then some (m.pairSpectrum ++ found)
        else splitWithin budget (steps + 1) (shiftedStep (m.stepShift steps) m) found

/-- The largest entry, by the sizes of both parts. -/
def largestEntry (m : CoeffMatrix C) : R :=
  m.entries.foldl (fun l c => RealNumber.max l (partsSize c)) 0

/-- Every entry divided by a real number. -/
def shrink (m : CoeffMatrix C) (x : R) : CoeffMatrix C :=
  ofFn m.nrows m.ncols fun i j => ComplexNumber.shrink (m.entry i j) x

/-- The eigenvalues of a square matrix in the order in which they stand on the diagonal. -/
def eigenvalues? (m : CoeffMatrix C) : Option (List C) :=
  if m.nrows = 0 then some []
  else if m.nrows = 1 then some [m.entry 0 0]
  else if m.nrows = 2 then some m.pairSpectrum
  else
    let unit : R := m.largestEntry
    if unit == 0 then some (List.replicate m.nrows 0)
    else
      (splitWithin (200 * m.nrows) 0 (m.shrink unit).hessenberg []).map
        (List.map (ComplexNumber.stretch unit))

theorem hessenberg_nrows (m : CoeffMatrix C) : m.hessenberg.nrows = m.nrows := by
  have hfold : ∀ (places : List (Nat × Nat)) (a : CoeffMatrix C),
      (places.foldl clearEntry a).nrows = a.nrows := by
    intro places
    induction places with
    | nil => exact fun _ => rfl
    | cons p places ih => intro a; rw [List.foldl_cons, ih]; rfl
  exact hfold _ _

theorem leading_nrows (m : CoeffMatrix C) (n : Nat) : (m.leading n).nrows = n := rfl

theorem shiftedStep_nrows (mu : C) (m : CoeffMatrix C) : (shiftedStep mu m).nrows = m.nrows := by
  have hstep : ∀ (ks : List Nat) (t : Triangular C R),
      (ks.foldl Triangular.step t).matrix.nrows = t.matrix.nrows := by
    intro ks
    induction ks with
    | nil => exact fun _ => rfl
    | cons k ks ih => intro t; rw [List.foldl_cons, ih]; rfl
  have hcols : ∀ (gs : List (Rotation C R × Nat)) (a : CoeffMatrix C),
      (gs.foldl (fun m gk => gk.1.columns gk.2 m) a).nrows = a.nrows := by
    intro gs
    induction gs with
    | nil => exact fun _ => rfl
    | cons g gs ih => intro a; rw [List.foldl_cons, ih]; rfl
  have hshift : ∀ (a : CoeffMatrix C) (c : C), (a.shift c).nrows = a.nrows := fun _ _ => rfl
  simp only [shiftedStep, triangularize, hshift, hcols, hstep]

theorem pairSpectrum_length (m : CoeffMatrix C) : m.pairSpectrum.length = 2 := by
  unfold pairSpectrum
  dsimp only
  split <;> rfl

/-- A run that ends has found one eigenvalue for each row. -/
theorem splitWithin_length {budget steps : Nat} {m : CoeffMatrix C} {found spectrum : List C}
    (h : splitWithin budget steps m found = some spectrum) :
    spectrum.length = m.nrows + found.length := by
  induction budget generalizing steps m found with
  | zero =>
    unfold splitWithin at h
    split at h
    · cases h
      omega
    · split at h
      · cases h
        rw [List.length_cons]
        omega
      · cases h
  | succ budget ih =>
    unfold splitWithin at h
    split at h
    · cases h
      omega
    · split at h
      · cases h
        rw [List.length_cons]
        omega
      · dsimp only at h
        split at h
        · rw [ih h, leading_nrows, List.length_cons]
          omega
        · split at h
          · cases h
            rw [List.length_append, pairSpectrum_length]
            omega
          · rw [ih h, shiftedStep_nrows]

/-- There are as many eigenvalues as rows. -/
theorem eigenvalues?_length {m : CoeffMatrix C} {spectrum : List C}
    (h : m.eigenvalues? = some spectrum) : spectrum.length = m.nrows := by
  unfold eigenvalues? at h
  split at h
  · cases h
    exact Eq.symm (by assumption)
  · split at h
    · cases h
      exact Eq.symm (by assumption)
    · split at h
      · cases h
        rw [pairSpectrum_length]
        exact Eq.symm (by assumption)
      · dsimp only at h
        split at h
        · cases h
          exact List.length_replicate ..
        · obtain ⟨found, hfound, rfl⟩ := Option.map_eq_some_iff.1 h
          rw [List.length_map, splitWithin_length hfound, hessenberg_nrows]
          rfl

end CoeffMatrix

end LieNormalForm
