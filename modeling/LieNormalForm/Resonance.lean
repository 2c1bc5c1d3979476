import LieNormalForm.Error
import LieNormalForm.Scalar

/-!
# Resonance

A term `x^α` in component `k` meets the divisor `λ_k − Σ_j α_j·λ_j`. A zero test decides
whether the divisor counts as zero: then the term is resonant and stays, otherwise it can
be removed by dividing through the divisor. A test that lets an exact zero pass as
different from zero is caught.
-/

namespace LieNormalForm

/-- Decides which divisors count as zero. -/
abbrev ZeroTest (C : Type) := C → Bool

/-- The zero tests that options can name. -/
inductive ResonanceTest (C R : Type)
  /-- Only a divisor that vanishes is zero. -/
  | exact
  /-- A divisor smaller than `epsilon` is zero. -/
  | tolerance (epsilon : R)
  /-- A divisor with a vanishing image is zero. -/
  | custom (image : C → C)

inductive Resonance (C : Type)
  | resonant
  | eliminable (divisor : C)
deriving DecidableEq

variable {C W : Type} [Coefficient C W]

namespace ResonanceTest

variable {R : Type} [RealNumber R]

def zeroTest [Normed C R] : ResonanceTest C R → ZeroTest C
  | exact => Coefficient.isZero
  | tolerance epsilon => fun d => RealNumber.lt (Normed.norm d) epsilon
  | custom image => fun d => Coefficient.isZero (image d)

/-- The name of a test and its parameter. -/
def describe [Numeral R] : ResonanceTest C R → String
  | exact => "Exact"
  | tolerance epsilon => "Tolerance \x7b epsilon: " ++ Numeral.marked epsilon ++ " \x7d"
  | custom _ => "Custom(..)"

theorem zeroTest_exact [Normed C R] (d : C) :
    (exact : ResonanceTest C R).zeroTest d = Coefficient.isZero d := rfl

theorem zeroTest_tolerance [Normed C R] (epsilon : R) (d : C) :
    (tolerance epsilon : ResonanceTest C R).zeroTest d = RealNumber.lt (Normed.norm d) epsilon := rfl

end ResonanceTest

/-- `target − Σ_j α_j·λ_j`, over the exponents and eigenvalues that stand side by side. -/
def divisor (m : Monomial) (eigenvalues : List C) (target : C) : C :=
  target - Coefficient.sum (List.zipWith (fun e l => Coefficient.mulNat l e) m eigenvalues)

/-- Whether the term `x^α` in component `k` stays, or else its divisor. -/
def classify (k : Nat) (m : Monomial) (eigenvalues : List C) (test : ZeroTest C) :
    Except Error (Resonance C) :=
  if eigenvalues.length ≠ m.length then
    .error (.shape .eigenvalues m.length eigenvalues.length)
  else
    match eigenvalues[k]? with
    | none => .error (.shape .componentIndex m.length (k + 1))
    | some target =>
      let d := divisor m eigenvalues target
      if test d then .ok .resonant
      else if Coefficient.isZero d then .error (.singularDivisor k m)
      else .ok (.eliminable d)

theorem classify_length {k : Nat} {m : Monomial} {eigenvalues : List C} {test : ZeroTest C}
    {r : Resonance C} (h : classify k m eigenvalues test = .ok r) :
    eigenvalues.length = m.length := by
  unfold classify at h
  split at h
  · cases h
  · omega

theorem classify_eq {k : Nat} {m : Monomial} {eigenvalues : List C} {test : ZeroTest C}
    {target : C} (hm : eigenvalues.length = m.length) (hk : eigenvalues[k]? = some target) :
    classify k m eigenvalues test =
      if test (divisor m eigenvalues target) then .ok .resonant
      else if Coefficient.isZero (divisor m eigenvalues target) then .error (.singularDivisor k m)
      else .ok (.eliminable (divisor m eigenvalues target)) := by
  simp [classify, hm, hk]

theorem classify_eliminable {k : Nat} {m : Monomial} {eigenvalues : List C} {test : ZeroTest C}
    {d : C} (h : classify k m eigenvalues test = .ok (.eliminable d)) :
    test d = false ∧ Coefficient.isZero d = false := by
  unfold classify at h
  split at h
  · cases h
  · split at h
    · cases h
    · dsimp only at h
      split at h
      · cases h
      · split at h
        · cases h
        · cases h
          simp_all

/-- A test that accepts every exact zero never lets a singular divisor through. -/
theorem classify_not_singular {k : Nat} {m : Monomial} {eigenvalues : List C} {test : ZeroTest C}
    (htest : ∀ d : C, Coefficient.isZero d = true → test d = true) (hk : k < eigenvalues.length)
    (hm : eigenvalues.length = m.length) : ∃ r, classify k m eigenvalues test = .ok r := by
  rw [classify_eq hm (List.getElem?_eq_getElem hk)]
  split
  · exact ⟨_, rfl⟩
  · rename_i hd
    split
    · rename_i hz
      exact absurd (htest _ hz) hd
    · exact ⟨_, rfl⟩

end LieNormalForm
