/-!
# Sets of characters as ranges

A property of characters is a list of closed ranges of code points, ascending and apart.
-/

namespace LieNormalForm.Text

/-- Membership in ascending ranges; the search stops at the first range above the number. -/
def inRanges : List (Nat × Nat) → Nat → Bool
  | [], _ => false
  | (low, high) :: rs, n => if n < low then false else if n ≤ high then true else inRanges rs n

theorem inRanges_nil (n : Nat) : inRanges [] n = false := rfl

theorem inRanges_mem {rs : List (Nat × Nat)} {n : Nat} (h : inRanges rs n = true) :
    ∃ r ∈ rs, r.1 ≤ n ∧ n ≤ r.2 := by
  induction rs with
  | nil => simp [inRanges] at h
  | cons r rs ih =>
    unfold inRanges at h
    split at h
    · cases h
    · rename_i hlow
      split at h
      · rename_i hhigh
        exact ⟨r, List.mem_cons_self .., by omega, hhigh⟩
      · obtain ⟨s, hs, hn⟩ := ih h
        exact ⟨s, List.mem_cons_of_mem _ hs, hn⟩

end LieNormalForm.Text
