import LieNormalForm.Proofs.LieSeries.Transport

/-!
# The velocity of a series

The operators of a flow may themselves come from vectors. Of a series that the flow carries to
its first vector, the derivative by the parameter is then carried to the vectors that the flow
was made from, up to what the operators do to the first vector; and these vectors can be read off
one after another, because each depends on the ones before it.
-/

noncomputable section

open Finset

namespace LieNormalForm

namespace LieSeries

variable {K : Type*} [Field K] {M : Type*} [AddCommGroup M] [Module K M]

/-- The vectors whose operators carry a series to these vectors. -/
def velocity (act : M → Module.End K M) (r : ℕ → M) (i : ℕ) : M :=
  transport (fun j => if _h : j < i then act (velocity act r j) else 0) r i
termination_by i

theorem transport_congr_right {l : ℕ → Module.End K M} {s s' : ℕ → M} {i : ℕ}
    (h : ∀ q ≤ i, s q = s' q) : transport l s i = transport l s' i := by
  rw [transport_apply, transport_apply]
  refine sum_congr rfl fun q hq => ?_
  have hsum := HasAntidiagonal.mem_antidiagonal.1 hq
  rw [h q.2 (by omega)]

variable [CharZero K] {act : M → Module.End K M}

theorem transport_velocity (r : ℕ → M) (i : ℕ) :
    transport (fun j => act (velocity act r j)) r i = velocity act r i := by
  rw [velocity]
  apply transport_congr
  intro j hj
  rw [dif_pos hj]

/-- No other vectors than the velocity have operators that carry the series to them. -/
theorem velocity_unique {r w : ℕ → M} {count : ℕ}
    (h : ∀ i < count, transport (fun j => act (w j)) r i = w i) :
    ∀ i < count, w i = velocity act r i := by
  intro i
  induction i using Nat.strong_induction_on with
  | _ i ih =>
    intro hi
    rw [← h i hi, ← transport_velocity]
    apply transport_congr
    intro j hj
    rw [ih j hj (by omega)]

theorem velocity_mem {G : ℕ → Submodule K M} {e : ℕ}
    (hact : ∀ j d, ∀ w ∈ G (j + e), ∀ x ∈ G d, act w x ∈ G (d + j + 1)) {r : ℕ → M}
    (hr : ∀ q, r q ∈ G (q + e)) (i : ℕ) : velocity act r i ∈ G (i + e) := by
  induction i using Nat.strong_induction_on with
  | _ i ih =>
    rw [velocity]
    refine transport_mem (fun j d x hx => ?_) hr i
    split
    · rename_i hj
      exact hact j d _ (ih j hj) x hx
    · exact Submodule.zero_mem _

/-- A series is carried to its first vector alone if and only if its derivative is carried to
what the operators take the first vector to, with the opposite sign. -/
theorem transport_succ_eq_zero_iff {l : ℕ → Module.End K M} {s : ℕ → M} {count : ℕ} :
    (∀ i < count, transport l s (i + 1) = 0) ↔
      ∀ i < count, transport l (rise (K := K) s) i = -l i (s 0) := by
  have hfirst : ∀ i, (∀ j < i, transport l s (j + 1) = 0) →
      ((i + 1 : ℕ) : K) • transport l s (i + 1) =
        transport l (rise (K := K) s) i + l i (s 0) := by
    intro i hzero
    rw [rise_transport, sum_eq_single (i, 0), transport_zero]
    · intro q hq hne
      have hsum := HasAntidiagonal.mem_antidiagonal.1 hq
      obtain ⟨j, hj⟩ : ∃ j, q.2 = j + 1 := by
        apply Nat.exists_eq_succ_of_ne_zero
        intro hq₂
        exact hne (Prod.ext (by dsimp only; omega) hq₂)
      rw [hj, hzero j (by omega), map_zero]
    · exact fun hnot => absurd (HasAntidiagonal.mem_antidiagonal.2 (Nat.add_zero i)) hnot
  constructor
  · intro h i hi
    have hstep := hfirst i fun j hj => h j (by omega)
    rw [h i hi, smul_zero] at hstep
    exact eq_neg_of_add_eq_zero_left hstep.symm
  · intro h i
    induction i using Nat.strong_induction_on with
    | _ i ih =>
      intro hi
      have hstep := hfirst i fun j hj => ih j hj (by omega)
      rw [h i hi, neg_add_cancel] at hstep
      exact (smul_eq_zero.1 hstep).resolve_left (cast_succ_ne_zero i)

end LieSeries

end LieNormalForm

end
