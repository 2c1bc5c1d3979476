import LieNormalForm.Proofs.Support.Tuple
import LieNormalForm.Homological.Equation

/-!
# What solvers put where

Both solvers sort terms by their divisors: the remainder has terms with divisors that the zero
test accepts, and the generator terms with divisors that it rejects. Nothing but terms of the
degree of the right side comes up on the way, because brackets with the linear part keep degrees.
-/

namespace LieNormalForm

open Monomial

variable {C W : Type} [Coefficient C W]

/-- The divisor of a monomial in a component passes as zero. -/
def Accepts (eigenvalues : List C) (test : ZeroTest C) (k : ℕ) (m : Monomial) : Prop :=
  ∃ target, eigenvalues[k]? = some target ∧ test (divisor m eigenvalues target) = true

instance (eigenvalues : List C) (test : ZeroTest C) (k : ℕ) (m : Monomial) :
    Decidable (Accepts eigenvalues test k m) :=
  decidable_of_iff (eigenvalues[k]?.any fun target => test (divisor m eigenvalues target))
    (Option.any_eq_true _ _)

/-- The divisor of a monomial in a component does not pass as zero. -/
def Rejects (eigenvalues : List C) (test : ZeroTest C) (k : ℕ) (m : Monomial) : Prop :=
  ∃ target, eigenvalues[k]? = some target ∧ test (divisor m eigenvalues target) = false

/-- A zero test that lets no exact zero pass as different from zero. -/
def AcceptsZeros (test : ZeroTest C) : Prop :=
  ∀ d : C, Coefficient.isZero d = true → test d = true

section Classify

variable {eigenvalues : List C} {test : ZeroTest C} {k : ℕ} {m : Monomial}

theorem not_accepts_of_rejects (h : Rejects eigenvalues test k m) :
    ¬Accepts eigenvalues test k m := by
  rintro ⟨target, hget, htest⟩
  obtain ⟨target', hget', htest'⟩ := h
  obtain rfl := Option.some.inj (hget.symm.trans hget')
  rw [htest] at htest'
  cases htest'

theorem accepts_of_classify (h : classify k m eigenvalues test = .ok .resonant) :
    Accepts eigenvalues test k m := by
  have hlength := classify_length h
  cases hk : eigenvalues[k]? with
  | none => simp [classify, hlength, hk] at h
  | some target =>
    refine ⟨target, hk, ?_⟩
    rw [classify_eq hlength hk] at h
    split at h
    · assumption
    · split at h <;> cases h

theorem classify_of_accepts (hm : eigenvalues.length = m.length)
    (h : Accepts eigenvalues test k m) : classify k m eigenvalues test = .ok .resonant := by
  obtain ⟨target, hget, htest⟩ := h
  rw [classify_eq hm hget, if_pos htest]

theorem rejects_of_classify {d : C} (h : classify k m eigenvalues test = .ok (.eliminable d)) :
    Rejects eigenvalues test k m := by
  have hlength := classify_length h
  cases hk : eigenvalues[k]? with
  | none => simp [classify, hlength, hk] at h
  | some target =>
    refine ⟨target, hk, ?_⟩
    rw [classify_eq hlength hk] at h
    split at h
    · cases h
    · rename_i htest
      exact eq_false_of_ne_true htest

end Classify

namespace Split

variable {eigenvalues : List C} {test : ZeroTest C}

/-- Remainder and generator have the degree of the right side and the terms that belong there. -/
structure Graded (n d : ℕ) (eigenvalues : List C) (test : ZeroTest C) (s : Split C) : Prop where
  remainder : s.remainder.Graded n n d
  generator : s.generator.Graded n n d
  accepted : s.remainder.Supported (Accepts eigenvalues test)
  rejected : s.generator.Supported (Rejects eigenvalues test)

section Semisimple

/-- What sorting keeps: the halves have only monomials of the terms that were sorted. -/
structure Halves.Sorted (P : Monomial → Prop) (k : ℕ) (eigenvalues : List C) (test : ZeroTest C)
    (s : Halves C) : Prop where
  remainder : s.remainder.Supported fun m => P m ∧ Accepts eigenvalues test k m
  generator : s.generator.Supported fun m => P m ∧ Rejects eigenvalues test k m

variable {P : Monomial → Prop} {k : ℕ} {s s' : Halves C}

theorem sortTerm_sorted {t : Term C} (ht : P t.1) (h : sortTerm eigenvalues test k s t = .ok s')
    (hs : s.Sorted P k eigenvalues test) : s'.Sorted P k eigenvalues test := by
  unfold sortTerm at h
  split at h
  · cases h
  · rename_i hclass
    cases h
    exact ⟨hs.remainder.addTerm ⟨ht, accepts_of_classify hclass⟩ _, hs.generator⟩
  · rename_i d hclass
    cases h
    exact ⟨hs.remainder, hs.generator.addTerm ⟨ht, rejects_of_classify hclass⟩ _⟩

theorem sortTerms_sorted {ts : List (Term C)} (hts : ∀ t ∈ ts, P t.1)
    (h : sortTerms eigenvalues test k s ts = .ok s') (hs : s.Sorted P k eigenvalues test) :
    s'.Sorted P k eigenvalues test := by
  induction ts generalizing s with
  | nil =>
    cases h
    exact hs
  | cons t ts ih =>
    obtain ⟨ht, hts⟩ := List.forall_mem_cons.1 hts
    simp only [sortTerms] at h
    split at h
    · cases h
    · rename_i s₁ hterm
      exact ih hts h (sortTerm_sorted ht hterm hs)

theorem halves_supported {P : ℕ → Monomial → Prop} {halves : List (Halves C)} (n : ℕ)
    {half : Halves C → Poly C} (h : ∀ k s, halves[k]? = some s → (half s).Supported (P k)) :
    (⟨n, halves.map half⟩ : Tuple C).Supported P := by
  rw [Tuple.supported_iff]
  intro k p hk
  rw [List.getElem?_map] at hk
  obtain ⟨s, hs, rfl⟩ := Option.map_eq_some_iff.1 hk
  exact h k s hs

theorem semisimple_graded {n d : ℕ} {linear forcing : Tuple C} (hF : forcing.Graded n n d)
    {s : Split C} (h : semisimple linear eigenvalues forcing test = .ok s) :
    s.Graded n d eigenvalues test := by
  unfold semisimple at h
  split at h
  · cases h
  · split at h
    · cases h
    · rename_i halves hhalves
      cases h
      have hsorted : ∀ k (half : Halves C), halves[k]? = some half →
          half.Sorted (OfDegree n d) k eigenvalues test := by
        intro k half hk
        obtain ⟨p, hp, hsort⟩ := sortComponents_getElem? hhalves hk
        rw [Nat.zero_add] at hsort
        exact sortTerms_sorted (Tuple.supported_iff.1 hF.supported k p hp) hsort
          ⟨.zero _, .zero _⟩
      have hlength : ∀ half : Halves C → Poly C, (halves.map half).length = n := by
        intro half
        rw [List.length_map, sortComponents_length hhalves]
        exact hF.size_eq
      have hremainder := halves_supported forcing.nvars fun k s hs => (hsorted k s hs).remainder
      have hgenerator := halves_supported forcing.nvars fun k s hs => (hsorted k s hs).generator
      exact ⟨⟨hlength _, hF.nvars_eq, hremainder.imp fun _ _ hm => hm.1⟩,
        ⟨hlength _, hF.nvars_eq, hgenerator.imp fun _ _ hm => hm.1⟩,
        hremainder.imp fun _ _ hm => hm.2, hgenerator.imp fun _ _ hm => hm.2⟩

end Semisimple

section Nilpotent

/-- What a sweep keeps: everything has the degree of the right side, and what is sorted out
belongs there. -/
structure Sweep.Graded (n d : ℕ) (eigenvalues : List C) (test : ZeroTest C) (s : Sweep C) :
    Prop where
  residual : s.residual.Graded n n d
  split : (⟨s.remainder, s.generator⟩ : Split C).Graded n d eigenvalues test

namespace Sweep

variable {n d k : ℕ} {linear forcing : Tuple C} {s s' : Sweep C}

theorem start_graded (hF : forcing.Graded n n d) :
    (start forcing).Graded n d eigenvalues test := by
  have hzeros : (Tuple.zeros forcing.size forcing.nvars : Tuple C).Graded n n d := by
    rw [hF.size_eq, hF.nvars_eq]
    exact .zeros n n d
  exact ⟨hF, hzeros, hzeros, .zeros _ _, .zeros _ _⟩

theorem keep_graded {t : Term C} (ht : OfDegree n d t.1)
    (hclass : Accepts eigenvalues test k t.1) (hs : s.Graded n d eigenvalues test) :
    (s.keep k t).Graded n d eigenvalues test := by
  refine ⟨hs.residual.modify k fun p hp => hp.removeTerm t.1,
    hs.split.remainder.modify k fun p hp => hp.addTerm ht t.2, hs.split.generator, ?_,
    hs.split.rejected⟩
  exact hs.split.accepted.modify k fun hp => hp.addTerm hclass t.2

theorem eliminate_graded (hA : linear.Graded n n 1) {m : Monomial} (hm : OfDegree n d m)
    (hclass : Rejects eigenvalues test k m) (c : C) (hs : s.Graded n d eigenvalues test) :
    (eliminate linear s k m c).Graded n d eigenvalues test := by
  have hy : (Tuple.single s.residual.size k (Poly.ofTerm m c)).Graded n n d := by
    rw [hs.residual.size_eq]
    exact .single n k hm c
  have hbracket := hA.bracket (Nat.add_comm 1 d) hy
  refine ⟨(hs.residual.sub hbracket).modify k fun p hp => hp.removeTerm m, hs.split.remainder,
    hs.split.generator.modify k fun p hp => hp.addTerm hm c, hs.split.accepted, ?_⟩
  exact hs.split.rejected.modify k fun hp => hp.addTerm hclass c

theorem handle_graded (hA : linear.Graded n n 1) {t : Term C}
    (ht : t ∈ (s.residual.component k).terms)
    (h : handle linear eigenvalues test s k t = .ok s') (hs : s.Graded n d eigenvalues test) :
    s'.Graded n d eigenvalues test := by
  have hdegree := hs.residual.supported k t ht
  unfold handle at h
  split at h
  · cases h
  · rename_i hclass
    cases h
    exact keep_graded hdegree (accepts_of_classify hclass) hs
  · rename_i divisor hclass
    cases h
    exact eliminate_graded hA hdegree (rejects_of_classify hclass) _ hs

/-- What every step of a sweep keeps, the sweep of a component keeps. -/
theorem component_keeps {P : Sweep C → Prop}
    (hstep : ∀ s s' t, t ∈ (s.residual.component k).terms →
      handle linear eigenvalues test s k t = .ok s' → P s → P s') {budget : ℕ}
    (h : component linear eigenvalues test k budget s = .ok s') (hs : P s) : P s' := by
  induction budget generalizing s with
  | zero =>
    simp only [component] at h
    split at h
    · cases h
      exact hs
    · cases h
  | succ budget ih =>
    simp only [component] at h
    split at h
    · cases h
      exact hs
    · rename_i t hlightest
      split at h
      · cases h
      · rename_i s₁ hhandle
        exact ih h (hstep s s₁ t (Poly.lightest?_mem hlightest) hhandle hs)

theorem components_keeps {P : Sweep C → Prop}
    (hstep : ∀ k s s' t, t ∈ (s.residual.component k).terms →
      handle linear eigenvalues test s k t = .ok s' → P s → P s') {budget count : ℕ}
    (h : components linear eigenvalues test budget count s = .ok s') (hs : P s) : P s' := by
  induction count generalizing s with
  | zero =>
    cases h
    exact hs
  | succ k ih =>
    simp only [components] at h
    split at h
    · cases h
    · rename_i s₁ hcomponent
      exact ih h (component_keeps (hstep k) hcomponent hs)

theorem component_graded (hA : linear.Graded n n 1) {budget : ℕ}
    (h : component linear eigenvalues test k budget s = .ok s')
    (hs : s.Graded n d eigenvalues test) : s'.Graded n d eigenvalues test :=
  component_keeps (fun _ _ _ ht hhandle hs => handle_graded hA ht hhandle hs) h hs

theorem components_graded (hA : linear.Graded n n 1) {budget count : ℕ}
    (h : components linear eigenvalues test budget count s = .ok s')
    (hs : s.Graded n d eigenvalues test) : s'.Graded n d eigenvalues test :=
  components_keeps (fun _ _ _ _ ht hhandle hs => handle_graded hA ht hhandle hs) h hs

end Sweep

theorem nilpotent_graded {n d : ℕ} {linear forcing : Tuple C} (hA : linear.Graded n n 1)
    (hF : forcing.Graded n n d) {s : Split C}
    (h : nilpotent linear eigenvalues forcing test = .ok s) : s.Graded n d eigenvalues test := by
  unfold nilpotent nilpotentWithin at h
  split at h
  · cases h
  · split at h
    · split at h
      · cases h
      · rename_i sweep hsweep
        cases h
        exact (Sweep.components_graded hA hsweep (Sweep.start_graded hF)).split
    · cases h

end Nilpotent

end Split

/-- A solution has the degree of the right side, and its terms are where their divisors put
them. -/
theorem FormStrategy.solve_graded {n d : ℕ} {strategy : FormStrategy} {linear forcing : Tuple C}
    {eigenvalues : List C} {test : ZeroTest C} (hA : linear.Graded n n 1)
    (hF : forcing.Graded n n d) {s : Split C}
    (h : strategy.solve linear eigenvalues forcing test = .ok s) :
    s.Graded n d eigenvalues test := by
  cases strategy with
  | semisimple => exact Split.semisimple_graded hF h
  | nilpotent => exact Split.nilpotent_graded hA hF h

end LieNormalForm
