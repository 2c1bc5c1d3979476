import LieNormalForm.Proofs.LieSeries.Transport

/-!
# Steady flows

The flow of a product is the product of flows, and the flow of a sum of commuting operators is
the composition of their flows. An operator that does not depend on the parameter has the
exponential series as its flow: its terms are the powers over factorials. If the operator stands
at a later place instead, the same terms come at equal distances.
-/

noncomputable section

open Finset

namespace LieNormalForm

namespace LieSeries

variable {K : Type*} [Field K]
variable {L M N : Type*} [AddCommGroup L] [Module K L] [AddCommGroup M] [Module K M]
  [AddCommGroup N] [Module K N]

/-- A sum over a square is the sum over its lower triangle if nothing stands above. -/
theorem sum_range_range_eq {F : ℕ → ℕ → M} {n : ℕ} (h : ∀ p q, n ≤ p + q → F p q = 0) :
    ∑ p ∈ range n, ∑ q ∈ range n, F p q = ∑ r ∈ range n, ∑ q ∈ antidiagonal r, F q.1 q.2 := by
  simp only [Nat.sum_antidiagonal_eq_sum_range_succ F]
  rw [sum_range_diag_flip]
  apply sum_congr rfl
  intro p hp
  refine (sum_subset (range_mono (Nat.sub_le n p)) fun q _ hq => h p q ?_).symm
  rw [mem_range] at hq
  omega

theorem sum_antidiagonal_single (D : Module.End K M) (m p : ℕ) (s : ℕ → M) :
    ∑ q ∈ antidiagonal p, (Pi.single m D : ℕ → Module.End K M) q.1 (s q.2) =
      if m ≤ p then D (s (p - m)) else 0 := by
  rw [Nat.sum_antidiagonal_eq_sum_range_succ_mk]
  split
  · rename_i hm
    rw [sum_eq_single m, Pi.single_eq_same]
    · intro j _ hj
      rw [Pi.single_eq_of_ne hj, LinearMap.zero_apply]
    · exact fun hnot => absurd (mem_range.2 (by omega)) hnot
  · rename_i hm
    apply sum_eq_zero
    intro j hj
    rw [mem_range] at hj
    rw [Pi.single_eq_of_ne (by omega), LinearMap.zero_apply]

theorem transport_single_zero (l : ℕ → Module.End K M) (x : M) (p : ℕ) :
    transport l (Pi.single 0 x) p = flow l p x := by
  rw [transport_apply, sum_eq_single (p, 0), Pi.single_eq_same]
  · intro q hq hne
    have hsum := HasAntidiagonal.mem_antidiagonal.1 hq
    have hsnd : q.2 ≠ 0 := fun hzero => hne (Prod.ext (by dsimp only; omega) hzero)
    rw [Pi.single_eq_of_ne hsnd, map_zero]
  · exact fun hnot => absurd (HasAntidiagonal.mem_antidiagonal.2 (Nat.add_zero p)) hnot

theorem convolve_single_zero (B : L →ₗ[K] M →ₗ[K] N) (x : L) (y : M) :
    convolve B (Pi.single 0 x) (Pi.single 0 y) = Pi.single 0 (B x y) := by
  funext i
  cases i with
  | zero => simp [convolve]
  | succ i =>
    rw [convolve, Pi.single_eq_of_ne i.succ_ne_zero]
    apply sum_eq_zero
    intro q hq
    have hsum := HasAntidiagonal.mem_antidiagonal.1 hq
    by_cases hfst : q.1 = 0
    · rw [Pi.single_eq_of_ne (by omega : q.2 ≠ 0), map_zero]
    · rw [Pi.single_eq_of_ne hfst, map_zero, LinearMap.zero_apply]

theorem commute_single {D D' : Module.End K M} (h : Commute D D') (m i j : ℕ) :
    Commute ((Pi.single m D : ℕ → Module.End K M) i) ((Pi.single m D' : ℕ → Module.End K M) j) := by
  by_cases hi : i = m
  · by_cases hj : j = m
    · rw [hi, hj, Pi.single_eq_same, Pi.single_eq_same]
      exact h
    · rw [Pi.single_eq_of_ne hj]
      exact Commute.zero_right _
  · rw [Pi.single_eq_of_ne hi]
    exact Commute.zero_left _

/-- The operators of a flow that does not depend on the parameter. -/
def steady (D : Module.End K M) : ℕ → Module.End K M := Pi.single 0 D

variable [CharZero K]

/-- The flow of a product that the operators act on as derivations. -/
theorem flow_product {l₁ : ℕ → Module.End K L} {l₂ : ℕ → Module.End K M} {l₃ : ℕ → Module.End K N}
    {B : L →ₗ[K] M →ₗ[K] N} (h : ∀ j x y, l₃ j (B x y) = B (l₁ j x) y + B x (l₂ j y)) (x : L)
    (y : M) (p : ℕ) :
    flow l₃ p (B x y) = ∑ q ∈ antidiagonal p, B (flow l₁ q.1 x) (flow l₂ q.2 y) := by
  have hproduct := transport_convolve h (Pi.single 0 x) (Pi.single 0 y) p
  rw [convolve_single_zero, transport_single_zero, convolve] at hproduct
  simpa only [transport_single_zero] using hproduct

/-- The flow of a sum of operators that commute is the flow of the one sum after the flow of the
other. -/
theorem flow_add {l l' : ℕ → Module.End K M} (h : ∀ i j, Commute (l i) (l' j)) (x : M) (p : ℕ) :
    flow (l + l') p x = ∑ q ∈ antidiagonal p, flow l q.1 (flow l' q.2 x) := by
  have hcommute : ∀ a j y, flow l a (l' j y) = l' j (flow l a y) := fun a j y =>
    (flow_map (fun i z => (LinearMap.congr_fun (h i j) z).symm) y a).symm
  induction p using Nat.strong_induction_on with
  | _ p ih =>
    cases p with
    | zero => simp [flow_zero_apply]
    | succ p =>
      have hfirst : ∑ q ∈ antidiagonal p, ((q.1 + 1 : ℕ) : K) • flow l (q.1 + 1) (flow l' q.2 x) =
          ∑ r ∈ antidiagonal p, ∑ q ∈ antidiagonal r.2, l r.1 (flow l q.1 (flow l' q.2 x)) := by
        rw [sum_antidiagonal_assoc fun a b c => l a (flow l b (flow l' c x))]
        exact sum_congr rfl fun q _ => flow_succ _ _
      have hsecond : ∑ q ∈ antidiagonal p, ((q.2 + 1 : ℕ) : K) • flow l q.1 (flow l' (q.2 + 1) x) =
          ∑ r ∈ antidiagonal p, ∑ q ∈ antidiagonal r.2, l' r.1 (flow l q.1 (flow l' q.2 x)) := by
        rw [sum_antidiagonal_left_comm fun a b c => l' a (flow l b (flow l' c x))]
        apply sum_congr rfl
        intro q _
        rw [← map_smul, flow_succ, map_sum]
        exact sum_congr rfl fun r _ => hcommute _ _ _
      apply smul_right_injective M (cast_succ_ne_zero (K := K) p)
      dsimp only
      rw [flow_succ, succ_smul_sum_antidiagonal fun a b => flow l a (flow l' b x), hfirst, hsecond,
        ← sum_add_distrib]
      apply sum_congr rfl
      intro r hr
      have hsum := HasAntidiagonal.mem_antidiagonal.1 hr
      rw [ih r.2 (by omega), map_sum, ← sum_add_distrib]
      rfl

/-- If operators commute, the flow of their opposites leads back. -/
theorem transport_neg_flow {l : ℕ → Module.End K M} (h : ∀ i j, Commute (l i) (l j)) (x : M)
    (p : ℕ) : transport (-l) (fun q => flow l q x) p = if p = 0 then x else 0 := by
  have hsum := flow_add (l := -l) (fun i j => (h i j).neg_left) x p
  rw [neg_add_cancel] at hsum
  rw [transport_apply, ← hsum]
  split
  · rename_i hp
    rw [hp, flow_zero_apply]
  · rename_i hp
    exact flow_eq_zero (fun _ => rfl) hp

section Steady

variable {D D' : Module.End K M}

theorem flow_steady_succ (x : M) (p : ℕ) :
    ((p + 1 : ℕ) : K) • flow (steady D) (p + 1) x = D (flow (steady D) p x) := by
  rw [flow_succ, steady, sum_antidiagonal_single D 0 p fun b => flow _ b x, if_pos p.zero_le,
    Nat.sub_zero]

theorem flow_steady_smul (t : K) (x : M) (p : ℕ) :
    flow (steady (t • D)) p x = (t ^ p / p.factorial) • (D ^ p) x := by
  induction p with
  | zero => simp [flow_zero_apply]
  | succ p ih =>
    apply smul_right_injective M (cast_succ_ne_zero (K := K) p)
    have hfactorial := cast_factorial_ne_zero (K := K) p
    have hsucc := cast_succ_ne_zero (K := K) p
    dsimp only
    rw [flow_steady_succ, ih, LinearMap.smul_apply, map_smul, pow_succ' D, Module.End.mul_apply,
      smul_smul, smul_smul, Nat.factorial_succ]
    congr 1
    push_cast at hsucc ⊢
    field_simp
    ring

/-- Flows of two commuting operators, one after the other. -/
theorem flow_steady_add (h : Commute D D') (x : M) (p : ℕ) :
    flow (steady (D + D')) p x =
      ∑ q ∈ antidiagonal p, flow (steady D) q.1 (flow (steady D') q.2 x) := by
  have hsum : steady (D + D') = steady D + steady D' :=
    Pi.single_add (f := fun _ => Module.End K M) 0 D D'
  rw [hsum]
  exact flow_add (commute_single h 0) x p

/-- An operator at place `m`, taken `m + 1` times, has the terms of the steady flow at the
multiples of `m + 1`. -/
theorem flow_single (D : Module.End K M) (m : ℕ) (x : M) (p : ℕ) :
    flow (Pi.single m (((m + 1 : ℕ) : K) • D)) p x =
      if m + 1 ∣ p then flow (steady D) (p / (m + 1)) x else 0 := by
  induction p using Nat.strong_induction_on with
  | _ p ih =>
    cases p with
    | zero => simp [flow_zero_apply]
    | succ p =>
      apply smul_right_injective M (cast_succ_ne_zero (K := K) p)
      dsimp only
      rw [flow_succ, sum_antidiagonal_single (((m + 1 : ℕ) : K) • D) m p fun b => flow _ b x]
      by_cases hm : m ≤ p
      · obtain ⟨r, rfl⟩ := Nat.exists_eq_add_of_le hm
        rw [if_pos hm, Nat.add_sub_cancel_left, ih r (by omega),
          show m + r + 1 = r + (m + 1) by omega, Nat.add_div_right _ m.succ_pos]
        simp only [Nat.dvd_add_self_right]
        split
        · rename_i hdvd
          obtain ⟨k, rfl⟩ := hdvd
          rw [Nat.mul_div_cancel_left _ m.succ_pos, LinearMap.smul_apply, ← flow_steady_succ,
            smul_smul, ← Nat.cast_mul]
          rfl
        · rw [map_zero, smul_zero]
      · rw [if_neg hm, if_neg (Nat.not_dvd_of_pos_of_lt p.succ_pos (by omega)), smul_zero]

end Steady

end LieSeries

end LieNormalForm

end
