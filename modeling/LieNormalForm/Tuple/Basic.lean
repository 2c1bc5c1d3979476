import LieNormalForm.CoeffMatrix
import LieNormalForm.Poly.Substitute
import LieNormalForm.Variables

/-!
# Tuples of polynomials

An ordered tuple of polynomials in the same variables: a vector field or a map if there are
as many components as variables, otherwise a tuple of functions. Operations act component by
component; sums keep the components that the second tuple does not have.
-/

namespace LieNormalForm

structure Tuple (C : Type) where
  nvars : Nat
  components : List (Poly C)
deriving BEq

namespace Tuple

variable {C W : Type} [Coefficient C W]

/-- A tuple of polynomials, refused if one is not in `n` variables. -/
def ofComponents (n : Nat) (components : List (Poly C)) : Except Error (Tuple C) :=
  match components.find? fun p => p.nvars != n with
  | some bad => .error (.shape .componentVariables n bad.nvars)
  | none => .ok ⟨n, components⟩

def size (f : Tuple C) : Nat := f.components.length

def isEmpty (f : Tuple C) : Bool := f.components.isEmpty

/-- Component `k`, zero beyond the last. -/
def component (f : Tuple C) (k : Nat) : Poly C := f.components.getD k (Poly.zero f.nvars)

def map (f : Tuple C) (g : Poly C → Poly C) : Tuple C := ⟨f.nvars, f.components.map g⟩

/-- Changes component `k`. -/
def modify (f : Tuple C) (k : Nat) (g : Poly C → Poly C) : Tuple C :=
  ⟨f.nvars, f.components.modify k g⟩

/-- `length` zero polynomials in `n` variables. -/
def zeros (length n : Nat) : Tuple C := ⟨n, List.replicate length (Poly.zero n)⟩

/-- The map `x ↦ x`. -/
def identity (n : Nat) : Tuple C := ⟨n, (List.range n).map fun k => Poly.coordinate n k⟩

/-- A tuple whose only component different from zero is `p` at place `k`. -/
def single (length k : Nat) (p : Poly C) : Tuple C := (zeros length p.nvars).modify k fun _ => p

def isZero (f : Tuple C) : Bool := f.components.all Poly.isZero

/-- Largest total degree over all components. -/
def degree? (f : Tuple C) : Option Nat := (f.components.filterMap Poly.degree?).max?

def minDegree? (f : Tuple C) : Option Nat := (f.components.filterMap Poly.minDegree?).min?

def scale (f : Tuple C) (c : C) : Tuple C := f.map fun p => p.scale c

/-- Every coefficient times a weight. -/
def scaleWeight (f : Tuple C) (w : W) : Tuple C := f.scale (Coefficient.ofWeight w)

def homogeneousPart (f : Tuple C) (d : Nat) : Tuple C := f.map fun p => p.homogeneousPart d

def truncate (f : Tuple C) (d : Nat) : Tuple C := f.map fun p => p.truncate d

/-- Applies `op` to components at equal places, as long as there are two. -/
def zipComponents (op : Poly C → Poly C → Poly C) : List (Poly C) → List (Poly C) → List (Poly C)
  | p :: ps, q :: qs => op p q :: zipComponents op ps qs
  | ps, _ => ps

def add (f g : Tuple C) : Tuple C := ⟨f.nvars, zipComponents Poly.add f.components g.components⟩

def sub (f g : Tuple C) : Tuple C := ⟨f.nvars, zipComponents Poly.sub f.components g.components⟩

def neg (f : Tuple C) : Tuple C := f.map Poly.neg

instance : Add (Tuple C) := ⟨add⟩
instance : Sub (Tuple C) := ⟨sub⟩
instance : Neg (Tuple C) := ⟨neg⟩

/-- The sum of a list of tuples onto a first one, from the left. -/
def sumOnto (f : Tuple C) (gs : List (Tuple C)) : Tuple C := gs.foldl (· + ·) f

/-- Replaces variable `k` of every component by `images k`, without the terms above the limit. -/
def substituteWithin (f images : Tuple C) (limit : Option Nat) : Except Error (Tuple C) :=
  match f.components.mapM fun p => p.substituteWithin images.components limit with
  | .error e => .error e
  | .ok components => .ok ⟨images.nvars, components⟩

/-- The composition `f ∘ images`. -/
def substitute (f images : Tuple C) : Except Error (Tuple C) := f.substituteWithin images none

/-- A tuple of functions in the given variables. -/
def checkFunctions (f : Tuple C) (vars : Variables) (what : Checked) : Except Error Unit :=
  if f.nvars = vars.size then .ok () else .error (.shape what vars.size f.nvars)

/-- As many components as variables, written in the given variables. -/
def checkField (f : Tuple C) (vars : Variables) (what : Checked) : Except Error Unit :=
  if f.size = vars.size then f.checkFunctions vars what
  else .error (.shape what vars.size f.size)

theorem map_nvars (f : Tuple C) (g : Poly C → Poly C) : (f.map g).nvars = f.nvars := rfl

theorem map_size (f : Tuple C) (g : Poly C → Poly C) : (f.map g).size = f.size := by
  simp [map, size]

theorem zeros_nvars (length n : Nat) : (zeros length n : Tuple C).nvars = n := rfl

theorem zeros_size (length n : Nat) : (zeros length n : Tuple C).size = length := by
  simp [zeros, size]

theorem identity_size (n : Nat) : (identity n : Tuple C).size = n := by simp [identity, size]

theorem zipComponents_length (op : Poly C → Poly C → Poly C) (ps qs : List (Poly C)) :
    (zipComponents op ps qs).length = ps.length := by
  induction ps generalizing qs with
  | nil => rfl
  | cons p ps ih =>
    cases qs with
    | nil => rfl
    | cons q qs => simp [zipComponents, ih]

theorem add_size (f g : Tuple C) : (f + g).size = f.size := zipComponents_length _ _ _

theorem sub_size (f g : Tuple C) : (f - g).size = f.size := zipComponents_length _ _ _

theorem add_nvars (f g : Tuple C) : (f + g).nvars = f.nvars := rfl

theorem sub_nvars (f g : Tuple C) : (f - g).nvars = f.nvars := rfl

theorem scale_size (f : Tuple C) (c : C) : (f.scale c).size = f.size := map_size _ _

theorem checkField_ok {f : Tuple C} {vars : Variables} {what : Checked} {u : Unit}
    (h : f.checkField vars what = .ok u) : f.size = vars.size ∧ f.nvars = vars.size := by
  unfold checkField checkFunctions at h
  split at h
  · rename_i hsize
    split at h
    · rename_i hvars
      exact ⟨hsize, hvars⟩
    · cases h
  · cases h

end Tuple

end LieNormalForm
