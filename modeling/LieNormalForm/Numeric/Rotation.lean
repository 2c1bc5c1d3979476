import LieNormalForm.CoeffMatrix

/-!
# Plane rotations

A unitary matrix that differs from the identity in two neighbouring rows and columns only. It
is chosen so that it turns a given pair of numbers into a pair with zero at the second place.
-/

namespace LieNormalForm

/-- The rotation with rows `(cos, sin)` and `(−conj sin, cos)`. -/
structure Rotation (C R : Type) where
  cos : R
  sin : C

namespace ComplexNumber

variable {C R : Type} [RealNumber R] [ComplexNumber C R]

/-- Both parts times a real number. -/
def stretch (x : R) (c : C) : C := ofParts (x * re c) (x * im c)

/-- Both parts divided by a real number. -/
def shrink (c : C) (x : R) : C := ofParts (re c / x) (im c / x)

/-- The root of half a number, zero below zero. -/
def halfRoot (x : R) : R := RealNumber.sqrt (RealNumber.max x 0 / Weight.ofNat 2)

/-- A square root, the one with a real part that is not negative. The larger part is half of a
sum without cancellation, the other one follows from the imaginary part. -/
def sqrt (c : C) : C :=
  let large := halfRoot (Normed.norm c + RealNumber.abs (re c))
  if large == 0 then ofParts large large
  else
    let small := RealNumber.abs (im c) / (Weight.ofNat 2 * large)
    let signed := fun x : R => if RealNumber.lt (im c) 0 then -x else x
    if RealNumber.lt (re c) 0 then ofParts small (signed large) else ofParts large (signed small)

end ComplexNumber

namespace Rotation

variable {C R : Type} [RealNumber R] [ComplexNumber C R]

open ComplexNumber (stretch shrink conj)

/-- Turns the pair `(a, b)` into a pair with zero at the second place. -/
def clearing (a b : C) : Rotation C R :=
  let sizeA := Normed.norm a
  let sizeB := Normed.norm b
  if sizeB == 0 then ⟨1, 0⟩
  else if sizeA == 0 then ⟨0, shrink (conj b) sizeB⟩
  else
    let size := Normed.norm (ComplexNumber.ofParts sizeA sizeB : C)
    ⟨sizeA / size, shrink (shrink a sizeA * conj b) size⟩

/-- Rotates the rows `k` and `k + 1`. -/
def rows (g : Rotation C R) (k : Nat) (m : CoeffMatrix C) : CoeffMatrix C :=
  .ofFn m.nrows m.ncols fun i j =>
    if i = k then stretch g.cos (m.entry k j) + g.sin * m.entry (k + 1) j
    else if i = k + 1 then stretch g.cos (m.entry (k + 1) j) - conj g.sin * m.entry k j
    else m.entry i j

/-- Rotates the columns `k` and `k + 1` back. -/
def columns (g : Rotation C R) (k : Nat) (m : CoeffMatrix C) : CoeffMatrix C :=
  .ofFn m.nrows m.ncols fun i j =>
    if j = k then stretch g.cos (m.entry i k) + conj g.sin * m.entry i (k + 1)
    else if j = k + 1 then stretch g.cos (m.entry i (k + 1)) - g.sin * m.entry i k
    else m.entry i j

/-- The similar matrix `G·M·G⁻¹`. -/
def similar (g : Rotation C R) (k : Nat) (m : CoeffMatrix C) : CoeffMatrix C :=
  g.columns k (g.rows k m)

theorem similar_nrows (g : Rotation C R) (k : Nat) (m : CoeffMatrix C) :
    (g.similar k m).nrows = m.nrows := rfl

theorem similar_ncols (g : Rotation C R) (k : Nat) (m : CoeffMatrix C) :
    (g.similar k m).ncols = m.ncols := rfl

end Rotation

end LieNormalForm
