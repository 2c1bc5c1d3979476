import Mathlib
import LieNormalForm.Proofs.Support.Tuple
import LieNormalForm.Homological.Nilpotent

/-!
# The budget of a sweep

A list of different monomials of one degree is no longer than the box of exponents up to this
degree, and the budget of a sweep leaves room for the box of the right side.
-/

namespace LieNormalForm

namespace Monomial

/-- The exponent lists of length `n` without an exponent above `bound`. -/
def box (bound : ℕ) : ℕ → List Monomial
  | 0 => [[]]
  | n + 1 => (List.range (bound + 1)).flatMap fun e => (box bound n).map (e :: ·)

theorem box_length (bound n : ℕ) : (box bound n).length = (bound + 1) ^ n := by
  induction n with
  | zero => rfl
  | succ n ih => simp [box, ih, Nat.pow_succ, Nat.mul_comm]

theorem mem_box {bound n : ℕ} {m : Monomial} (hm : m.length = n) (h : m.degree ≤ bound) :
    m ∈ box bound n := by
  subst hm
  induction m with
  | nil => simp [box]
  | cons a m ih =>
    rw [degree_cons] at h
    simp only [List.length_cons, box, List.mem_flatMap, List.mem_range, List.mem_map]
    exact ⟨a, by omega, m, ih (by omega), rfl⟩

theorem length_le_box {bound n : ℕ} {ms : List Monomial} (hnodup : ms.Nodup)
    (h : ∀ m ∈ ms, m.OfDegree n bound) : ms.length ≤ (bound + 1) ^ n := by
  rw [← box_length bound n]
  refine (List.subperm_of_subset hnodup fun m hm => ?_).length_le
  exact mem_box (h m hm).1 (Nat.le_of_eq (h m hm).2)

end Monomial

variable {C W : Type} [Coefficient C W] {len n d : ℕ} {f : Tuple C}

namespace Tuple

theorem exists_term_of_degree? (h : f.degree? = some d) :
    ∃ k, ∃ t ∈ (f.component k).terms, t.1.degree = d := by
  obtain ⟨p, hp, hdegree⟩ := List.mem_filterMap.1 (List.max?_mem h)
  obtain ⟨t, ht, hd⟩ := List.mem_map.1 (List.max?_mem hdegree)
  obtain ⟨k, hk⟩ := List.mem_iff_getElem?.1 hp
  refine ⟨k, t, ?_, hd⟩
  rwa [component, List.getD_eq_getElem?_getD, hk]

theorem terms_eq_nil_of_degree? (h : f.degree? = none) (k : ℕ) : (f.component k).terms = [] := by
  rw [degree?, List.max?_eq_none_iff, List.filterMap_eq_nil_iff] at h
  rw [component, List.getD_eq_getElem?_getD]
  cases hk : f.components[k]? with
  | none => rfl
  | some p =>
    have hp := h p (List.mem_of_getElem? hk)
    rw [Poly.degree?, List.max?_eq_none_iff, List.map_eq_nil_iff] at hp
    exact hp

/-- All terms of a homogeneous tuple have the degree that the tuple says it has. -/
theorem Graded.degree? (h : f.Graded len n d) : f.Graded len n (f.degree?.getD 0) := by
  refine ⟨h.size_eq, h.nvars_eq, ?_⟩
  cases hdegree : f.degree? with
  | none =>
    intro k t ht
    rw [terms_eq_nil_of_degree? hdegree] at ht
    cases ht
  | some e =>
    obtain ⟨k, t, ht, rfl⟩ := exists_term_of_degree? hdegree
    rw [Option.getD_some, (h.supported k t ht).2]
    exact h.supported

end Tuple

theorem Split.box_le_sweepBudget (hf : f.nvars = n) :
    (f.degree?.getD 0 + 1) ^ n ≤ sweepBudget f := by
  subst hf
  exact Nat.le_add_right _ _

end LieNormalForm
