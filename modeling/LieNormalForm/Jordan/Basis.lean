import LieNormalForm.Jordan.Algebra
import LieNormalForm.Jordan.Cluster
import LieNormalForm.Poly.Render

/-!
# Jordan bases

The columns of a basis in which a matrix has Jordan form. Every cluster of eigenvalues either
has as many eigenvectors as members, or a single eigenvector from which a chain of
generalized eigenvectors starts; other block structures are refused.
-/

namespace LieNormalForm

namespace Singular

variable {C R : Type}

/-- A vector and `count` further links, each a solution with the link before it on the right. -/
def chain (s : Singular C R) (threshold : R) :
    Nat → List C → Except Error (List (List C))
  | 0, v => .ok [v]
  | count + 1, v =>
    match s.solve? v threshold with
    | none => .error (.jordan .brokenChain)
    | some w =>
      match s.chain threshold count w with
      | .error e => .error e
      | .ok rest => .ok (v :: rest)

theorem chain_length {s : Singular C R} {threshold : R} {count : Nat} {v : List C}
    {links : List (List C)} (h : s.chain threshold count v = .ok links) :
    links.length = count + 1 := by
  induction count generalizing v links with
  | zero => cases h; rfl
  | succ count ih =>
    simp only [chain] at h
    split at h
    · cases h
    · split at h
      · cases h
      · rename_i rest hrest
        cases h
        simp [ih hrest]

end Singular

variable {C R : Type} [RealNumber R] [Numeral R] [ComplexNumber C R]

/-- The columns that belong to one cluster. -/
def Cluster.columns (L : LinearAlgebra C R) (m : CoeffMatrix C) (threshold : R) (k : Cluster C) :
    Except Error (List (List C)) :=
  let s := L.singular (m.shift k.center)
  let kernel := s.kernel threshold
  if kernel.length = k.count then .ok kernel
  else
    match kernel with
    | [v] => s.chain threshold (k.count - 1) v
    | _ => .error (.jordan (.mixedBlocks (complexText k.center) kernel.length k.count))

namespace LinearAlgebra

/-- The columns that belong to a list of clusters. -/
def clusterColumns (L : LinearAlgebra C R) (m : CoeffMatrix C) (threshold : R) :
    List (Cluster C) → Except Error (List (List C))
  | [] => .ok []
  | k :: ks =>
    match k.columns L m threshold with
    | .error e => .error e
    | .ok columns =>
      match L.clusterColumns m threshold ks with
      | .error e => .error e
      | .ok rest => .ok (columns ++ rest)

/-- The size against which tolerances are taken, at least one. -/
def scaleOf (m : CoeffMatrix C) : R := RealNumber.max m.frobenius 1

/-- A matrix `S` with `S⁻¹·M·S` in upper Jordan form. -/
def jordanBasis (L : LinearAlgebra C R) (m : CoeffMatrix C) (tolerance : R) :
    Except Error (CoeffMatrix C) :=
  let n := m.nrows
  if m.ncols ≠ n then .error (.shape .jordanColumns n m.ncols)
  else if n = 0 then .ok ⟨0, 0, []⟩
  else
    let scale := scaleOf m
    match L.spectrum? m with
    | none => .error (.jordan .noConvergence)
    | some spectrum =>
      match L.clusterColumns m (tolerance * scale)
          (Cluster.ofSpectrum (RealNumber.sqrt tolerance * scale) spectrum) with
      | .error e => .error e
      | .ok columns =>
        if columns.length = n then .ok (.ofColumns n columns)
        else .error (.jordan (.columnCount columns.length n))

end LinearAlgebra

/-- A cluster that is not refused has as many columns as members. -/
theorem Cluster.columns_length {L : LinearAlgebra C R} {m : CoeffMatrix C} {threshold : R}
    {k : Cluster C} {vs : List (List C)} (hk : 0 < k.count)
    (h : k.columns L m threshold = .ok vs) : vs.length = k.count := by
  unfold Cluster.columns at h
  dsimp only at h
  split at h
  · cases h
    assumption
  · split at h
    · have := Singular.chain_length h
      omega
    · cases h

end LieNormalForm
