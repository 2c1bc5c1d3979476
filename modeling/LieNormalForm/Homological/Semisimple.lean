import LieNormalForm.Homological.Split

/-!
# Diagonal linear parts

With a diagonal linear part every term of the forcing field is solved on its own: a
resonant term goes into the remainder, any other into the generator, divided by its divisor.
-/

namespace LieNormalForm

namespace Split

variable {C W : Type} [Coefficient C W]

/-- The two parts of one component. -/
structure Halves (C : Type) where
  remainder : Poly C
  generator : Poly C

/-- Puts one term of component `k` into the part that it belongs to. -/
def sortTerm (eigenvalues : List C) (test : ZeroTest C) (k : Nat) (s : Halves C) (t : Term C) :
    Except Error (Halves C) :=
  match classify k t.1 eigenvalues test with
  | .error e => .error e
  | .ok .resonant => .ok ⟨s.remainder.addTerm t.1 t.2, s.generator⟩
  | .ok (.eliminable d) => .ok ⟨s.remainder, s.generator.addTerm t.1 (t.2 / d)⟩

/-- Sorts terms of component `k` one after the other. -/
def sortTerms (eigenvalues : List C) (test : ZeroTest C) (k : Nat) :
    Halves C → List (Term C) → Except Error (Halves C)
  | s, [] => .ok s
  | s, t :: ts =>
    match sortTerm eigenvalues test k s t with
    | .error e => .error e
    | .ok s' => sortTerms eigenvalues test k s' ts

/-- Sorts the components from number `k` on. -/
def sortComponents (nvars : Nat) (eigenvalues : List C) (test : ZeroTest C) :
    Nat → List (Poly C) → Except Error (List (Halves C))
  | _, [] => .ok []
  | k, p :: ps =>
    match sortTerms eigenvalues test k ⟨Poly.zero nvars, Poly.zero nvars⟩ p.terms with
    | .error e => .error e
    | .ok s =>
      match sortComponents nvars eigenvalues test (k + 1) ps with
      | .error e => .error e
      | .ok rest => .ok (s :: rest)

/-- The solution for a diagonal linear part with the given eigenvalues. -/
def semisimple (linear : Tuple C) (eigenvalues : List C) (forcing : Tuple C)
    (test : ZeroTest C) : Except Error (Split C) :=
  match checkInput linear eigenvalues forcing with
  | .error e => .error e
  | .ok _ =>
    match sortComponents forcing.nvars eigenvalues test 0 forcing.components with
    | .error e => .error e
    | .ok halves =>
      .ok ⟨⟨forcing.nvars, halves.map Halves.remainder⟩,
        ⟨forcing.nvars, halves.map Halves.generator⟩⟩

theorem sortTerm_nvars {eigenvalues : List C} {test : ZeroTest C} {k : Nat} {s s' : Halves C}
    {t : Term C} (h : sortTerm eigenvalues test k s t = .ok s') :
    s'.remainder.nvars = s.remainder.nvars ∧ s'.generator.nvars = s.generator.nvars := by
  unfold sortTerm at h
  split at h <;> cases h <;> exact ⟨rfl, rfl⟩

theorem sortTerms_nvars {eigenvalues : List C} {test : ZeroTest C} {k : Nat} {s s' : Halves C}
    {ts : List (Term C)} (h : sortTerms eigenvalues test k s ts = .ok s') :
    s'.remainder.nvars = s.remainder.nvars ∧ s'.generator.nvars = s.generator.nvars := by
  induction ts generalizing s with
  | nil => cases h; exact ⟨rfl, rfl⟩
  | cons t ts ih =>
    simp only [sortTerms] at h
    split at h
    · cases h
    · rename_i s₁ hs
      have h₁ := sortTerm_nvars hs
      have h₂ := ih h
      exact ⟨h₂.1.trans h₁.1, h₂.2.trans h₁.2⟩

theorem sortComponents_length {nvars : Nat} {eigenvalues : List C} {test : ZeroTest C} {k : Nat}
    {ps : List (Poly C)} {halves : List (Halves C)}
    (h : sortComponents nvars eigenvalues test k ps = .ok halves) : halves.length = ps.length := by
  induction ps generalizing k halves with
  | nil => cases h; rfl
  | cons p ps ih =>
    simp only [sortComponents] at h
    split at h
    · cases h
    · split at h
      · cases h
      · rename_i rest hrest
        cases h
        simp [ih hrest]

theorem sortComponents_getElem? {nvars : Nat} {eigenvalues : List C} {test : ZeroTest C}
    {k i : Nat} {ps : List (Poly C)} {halves : List (Halves C)}
    (h : sortComponents nvars eigenvalues test k ps = .ok halves) {s : Halves C}
    (hi : halves[i]? = some s) :
    ∃ p, ps[i]? = some p ∧
      sortTerms eigenvalues test (k + i) ⟨Poly.zero nvars, Poly.zero nvars⟩ p.terms = .ok s := by
  induction ps generalizing k i halves with
  | nil =>
    cases h
    cases hi
  | cons p ps ih =>
    simp only [sortComponents] at h
    split at h
    · cases h
    · rename_i s₀ hs
      split at h
      · cases h
      · rename_i rest hrest
        cases h
        cases i with
        | zero =>
          obtain rfl := Option.some.inj hi
          exact ⟨p, rfl, hs⟩
        | succ i =>
          rw [← Nat.add_assoc, Nat.add_right_comm]
          exact ih hrest hi

theorem semisimple_size {linear forcing : Tuple C} {eigenvalues : List C} {test : ZeroTest C}
    {s : Split C} (h : semisimple linear eigenvalues forcing test = .ok s) :
    s.remainder.size = forcing.size ∧ s.generator.size = forcing.size := by
  unfold semisimple at h
  split at h
  · cases h
  · split at h
    · cases h
    · rename_i halves hh
      cases h
      have := sortComponents_length hh
      simp [Tuple.size, this]

end Split

end LieNormalForm
