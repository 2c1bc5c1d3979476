import LieNormalForm.Jordan.Algebra
import LieNormalForm.Numeric.Rotation

/-!
# Singular values by rotations of columns

The columns of a matrix are rotated against each other until they are orthogonal, and the
same rotations are applied to the columns of the identity. Then the sizes of the columns are
the singular values and the rotated columns of the identity the right singular vectors, which
are handed out in the order of falling singular values.
-/

namespace LieNormalForm

/-- A unit vector and its image under the matrix. -/
structure Spoke (C : Type) where
  vector : List C
  image : List C

namespace Spoke

variable {C R : Type} [RealNumber R] [ComplexNumber C R]

open ComplexNumber (stretch shrink conj)

/-- The product of two vectors, the first one conjugated. -/
def inner (xs ys : List C) : C :=
  Coefficient.sum (List.zipWith (fun x y => conj x * y) xs ys)

/-- The size of a vector, added up by right angles so that no square overflows or vanishes. -/
def length (xs : List C) : R :=
  xs.foldl (fun sum x => Normed.norm (ComplexNumber.ofParts sum (Normed.norm x) : C)) 0

/-- The combination `a·xs + b·ys`. -/
def combine (a : R) (xs : List C) (b : C) (ys : List C) : List C :=
  List.zipWith (fun x y => stretch a x + b * y) xs ys

/-- The root of `1 + z²`, which is the size of `z` when `z` is large. -/
def rootOnePlusSq (z : R) : R :=
  let size := RealNumber.abs z
  if RealNumber.lt (Weight.ofNat 1000000000) size then size else RealNumber.sqrt (1 + size * size)

/-- The tangent of the angle that makes columns of sizes `p` and `q` orthogonal, where `r` is
the size of the inner product of their directions. -/
def tangent (p q r : R) : R :=
  let z := (q / p - p / q) / (Weight.ofNat 2 * r)
  let t := 1 / (RealNumber.abs z + rootOnePlusSq z)
  if RealNumber.lt z 0 then -t else t

/-- Rotates two spokes against each other until their images are orthogonal. -/
def orthogonalize (x y : Spoke C) : Spoke C × Spoke C :=
  let p : R := length x.image
  let q : R := length y.image
  if p == 0 || q == 0 then (x, y)
  else
    let g := inner (x.image.map fun c => shrink c p) (y.image.map fun c => shrink c q)
    let r : R := Normed.norm g
    if RealNumber.le r (RealNumber.decimal 1 16) then (x, y)
    else
      let t := tangent p q r
      let c := 1 / rootOnePlusSq t
      let s := stretch (c * t) (shrink (conj g) r)
      let back := stretch (c * t) (shrink g r)
      (⟨combine c x.vector (-s) y.vector, combine c x.image (-s) y.image⟩,
        ⟨combine c y.vector back x.vector, combine c y.image back x.image⟩)

/-- Rotates one spoke against each of a list. -/
def against (x : Spoke C) : List (Spoke C) → Spoke C × List (Spoke C)
  | [] => (x, [])
  | y :: ys =>
    let xy := orthogonalize x y
    let rest := against xy.1 ys
    (rest.1, xy.2 :: rest.2)

/-- Rotates each of the first `count` spokes against all later ones. -/
def sweep : Nat → List (Spoke C) → List (Spoke C)
  | 0, spokes => spokes
  | _ + 1, [] => []
  | count + 1, x :: xs =>
    let rest := against x xs
    rest.1 :: sweep count rest.2

def sweeps : Nat → List (Spoke C) → List (Spoke C)
  | 0, spokes => spokes
  | count + 1, spokes => sweeps count (sweep spokes.length spokes)

/-- The size of the image: a singular value. -/
def size (x : Spoke C) : R := length x.image

/-- Sweeps until the images of all spokes are orthogonal, up to rounding, and sorts them by
falling singular values. -/
def ofMatrix (m : CoeffMatrix C) : List (Spoke C) :=
  (sweeps 40 <| (List.range m.ncols).map fun j =>
    ⟨(CoeffMatrix.identity m.ncols).column j, m.column j⟩).mergeSort
      fun x y => RealNumber.le y.size x.size

/-- The part of the solution for the right side `b` that lies along a spoke. -/
def addSolution (b : List C) (threshold : R) (solution : List C) (x : Spoke C) : List C :=
  let sigma := x.size
  if RealNumber.lt threshold sigma then
    let weight := shrink (inner (x.image.map fun c => shrink c sigma) b) sigma
    List.zipWith (fun s v => s + weight * v) solution x.vector
  else solution

end Spoke

namespace CoeffMatrix

variable {C R : Type} [RealNumber R] [ComplexNumber C R]

/-- Singular values, right singular vectors, and solutions of least size. -/
def singularOf (m : CoeffMatrix C) : Singular C R :=
  let spokes := Spoke.ofMatrix m
  ⟨spokes.map fun x => (x.size, x.vector),
    fun b threshold =>
      some (spokes.foldl (Spoke.addSolution b threshold) (List.replicate m.ncols 0))⟩

end CoeffMatrix

namespace Spoke

variable {C R : Type} [RealNumber R] [ComplexNumber C R]

theorem against_length (x : Spoke C) (ys : List (Spoke C)) :
    (against x ys).2.length = ys.length := by
  induction ys generalizing x with
  | nil => rfl
  | cons y ys ih => simp [against, ih]

theorem sweep_length (count : Nat) (spokes : List (Spoke C)) :
    (sweep count spokes).length = spokes.length := by
  induction count generalizing spokes with
  | zero => rfl
  | succ count ih =>
    cases spokes with
    | nil => rfl
    | cons x xs => simp [sweep, ih, against_length]

theorem sweeps_length (count : Nat) (spokes : List (Spoke C)) :
    (sweeps count spokes).length = spokes.length := by
  induction count generalizing spokes with
  | zero => rfl
  | succ count ih => rw [sweeps, ih, sweep_length]

/-- There are as many singular values as columns. -/
theorem ofMatrix_length (m : CoeffMatrix C) : (ofMatrix m).length = m.ncols := by
  simp [ofMatrix, sweeps_length, List.length_mergeSort]

end Spoke

end LieNormalForm
