import LieNormalForm.Proofs.LieSeries.Convolution

/-!
# Lie series

A sequence of operators `l_j` stands for the operator `Σ l_j·ε^j` that depends on a parameter.
`flow` is the series of operators that starts at the identity and whose derivative by the
parameter is `l` times itself, and `transport` applies it to a series of vectors. `entry` is
the two-dimensional scheme of derivatives whose rows obey the recurrence of Deprit's triangle.
-/

noncomputable section

open Finset

namespace LieNormalForm

namespace LieSeries

variable {K : Type*} [Field K]
variable {L M N : Type*} [AddCommGroup L] [Module K L] [AddCommGroup M] [Module K M]
  [AddCommGroup N] [Module K N]

/-- The solution of `(p + 1)·flow_{p+1} = Σ_j l_{p-j}·flow_j` that starts at the identity. -/
def flow (l : ℕ → Module.End K M) : ℕ → Module.End K M
  | 0 => 1
  | p + 1 => ((p + 1 : ℕ) : K)⁻¹ • ∑ j : Fin (p + 1), l (p - j) * flow l j

/-- A series carried along the flow. -/
def transport (l : ℕ → Module.End K M) : Module.End K (ℕ → M) :=
  LinearMap.pi fun i => ∑ q ∈ antidiagonal i, flow l q.1 ∘ₗ LinearMap.proj q.2

/-- Entry `(i, m)` of the triangle over a series. -/
def entry (l : ℕ → Module.End K M) (s : ℕ → M) (i m : ℕ) : M :=
  (i.factorial : K) • transport l ((rise (K := K) ^ m) s) i

variable (l : ℕ → Module.End K M)

theorem flow_zero : flow l 0 = 1 := by rw [flow]

theorem flow_zero_apply (x : M) : flow l 0 x = x := by
  rw [flow_zero, Module.End.one_apply]

theorem transport_apply (s : ℕ → M) (i : ℕ) :
    transport l s i = ∑ q ∈ antidiagonal i, flow l q.1 (s q.2) := by
  simp only [transport, LinearMap.pi_apply, LinearMap.sum_apply, LinearMap.comp_apply,
    LinearMap.proj_apply]

theorem transport_zero (s : ℕ → M) : transport l s 0 = s 0 := by
  rw [transport_apply, Nat.antidiagonal_zero, sum_singleton, flow_zero_apply]

/-- The transported series has the vector itself besides the earlier ones. -/
theorem transport_eq_add (s : ℕ → M) (i : ℕ) :
    transport l s i =
      s i + ∑ q ∈ (antidiagonal i).erase (0, i), flow l q.1 (s q.2) := by
  have hmem : (0, i) ∈ antidiagonal i := HasAntidiagonal.mem_antidiagonal.2 (Nat.zero_add i)
  rw [transport_apply, ← add_sum_erase _ _ hmem, flow_zero_apply]

theorem mem_erase_antidiagonal {i : ℕ} {q : ℕ × ℕ} (h : q ∈ (antidiagonal i).erase (0, i)) :
    q.2 < i ∧ q.1 + q.2 = i := by
  obtain ⟨hne, hq⟩ := mem_erase.1 h
  have hsum := HasAntidiagonal.mem_antidiagonal.1 hq
  have hpos : q.1 ≠ 0 := by
    intro hzero
    exact hne (Prod.ext hzero (by dsimp only; omega))
  omega

/-- A series is known up to an order by what it is carried to. -/
theorem transport_injective {s s' : ℕ → M} {d : ℕ}
    (h : ∀ i ≤ d, transport l s i = transport l s' i) : ∀ i ≤ d, s i = s' i := by
  intro i
  induction i using Nat.strong_induction_on with
  | _ i ih =>
    intro hi
    have hrest : ∑ q ∈ (antidiagonal i).erase (0, i), flow l q.1 (s q.2) =
        ∑ q ∈ (antidiagonal i).erase (0, i), flow l q.1 (s' q.2) := by
      refine sum_congr rfl fun q hq => ?_
      have hlt := mem_erase_antidiagonal hq
      rw [ih q.2 hlt.1 (by omega)]
    have hsum := h i hi
    rw [transport_eq_add, transport_eq_add, hrest] at hsum
    exact add_right_cancel hsum

theorem transport_eq_self {s : ℕ → M} {i : ℕ} (h : ∀ q < i, s q = 0) : transport l s i = s i := by
  rw [transport_eq_add, sum_eq_zero, add_zero]
  intro q hq
  rw [h q.2 (mem_erase_antidiagonal hq).1, map_zero]

theorem transport_succ {s : ℕ → M} (h : s 0 = 0) (i : ℕ) :
    transport l s (i + 1) = transport l (fun k => s (k + 1)) i := by
  rw [transport_apply, Nat.sum_antidiagonal_succ', h, map_zero, zero_add, transport_apply]

theorem entry_add (s s' : ℕ → M) (i m : ℕ) :
    entry l (s + s') i m = entry l s i m + entry l s' i m := by
  rw [entry, map_add, map_add, Pi.add_apply, smul_add]
  rfl

theorem entry_zero_right (s : ℕ → M) (i : ℕ) :
    entry l s i 0 = (i.factorial : K) • transport l s i := rfl

variable {l}

theorem entry_zero_left (s : ℕ → M) (m : ℕ) : entry l s 0 m = (m.factorial : K) • s m := by
  rw [entry, transport_zero, factorial_smul_rise_pow, Nat.add_zero]

variable [CharZero K]

theorem cast_succ_ne_zero (p : ℕ) : ((p + 1 : ℕ) : K) ≠ 0 := Nat.cast_ne_zero.2 p.succ_ne_zero

theorem cast_factorial_ne_zero (p : ℕ) : (p.factorial : K) ≠ 0 :=
  Nat.cast_ne_zero.2 p.factorial_ne_zero

theorem flow_succ (x : M) (p : ℕ) :
    ((p + 1 : ℕ) : K) • flow l (p + 1) x = ∑ q ∈ antidiagonal p, l q.1 (flow l q.2 x) := by
  rw [flow, LinearMap.smul_apply, smul_inv_smul₀ (cast_succ_ne_zero p), LinearMap.sum_apply,
    ← Nat.sum_antidiagonal_swap, Nat.sum_antidiagonal_eq_sum_range_succ_mk, Finset.sum_range]
  rfl

/-- The flow up to an order depends on the operators before it. -/
theorem flow_congr {l' : ℕ → Module.End K M} {p : ℕ} (h : ∀ j < p, l j = l' j) :
    flow l p = flow l' p := by
  induction p using Nat.strong_induction_on with
  | _ p ih =>
    cases p with
    | zero => rw [flow_zero, flow_zero]
    | succ p =>
      refine LinearMap.ext fun x => smul_right_injective M (cast_succ_ne_zero (K := K) p) ?_
      dsimp only
      rw [flow_succ, flow_succ]
      refine sum_congr rfl fun q hq => ?_
      have hsum := HasAntidiagonal.mem_antidiagonal.1 hq
      rw [h q.1 (by omega), ih q.2 (by omega) fun j hj => h j (by omega)]

theorem flow_map {l' : ℕ → Module.End K N} {φ : M →ₗ[K] N}
    (h : ∀ j x, φ (l j x) = l' j (φ x)) (x : M) (p : ℕ) :
    φ (flow l p x) = flow l' p (φ x) := by
  induction p using Nat.strong_induction_on with
  | _ p ih =>
    cases p with
    | zero => rw [flow_zero_apply, flow_zero_apply]
    | succ p =>
      apply smul_right_injective N (cast_succ_ne_zero (K := K) p)
      dsimp only
      rw [← map_smul, flow_succ, flow_succ, map_sum]
      refine sum_congr rfl fun q hq => ?_
      have hsum := HasAntidiagonal.mem_antidiagonal.1 hq
      rw [h, ih q.2 (by omega)]

theorem flow_eq_zero {x : M} (h : ∀ j, l j x = 0) {p : ℕ} (hp : p ≠ 0) : flow l p x = 0 := by
  induction p using Nat.strong_induction_on with
  | _ p ih =>
    cases p with
    | zero => exact absurd rfl hp
    | succ p =>
      apply smul_right_injective M (cast_succ_ne_zero (K := K) p)
      dsimp only
      rw [flow_succ, smul_zero, sum_eq_zero]
      intro q hq
      have hsum := HasAntidiagonal.mem_antidiagonal.1 hq
      by_cases hq₂ : q.2 = 0
      · rw [hq₂, flow_zero_apply, h]
      · rw [ih q.2 (by omega) hq₂, map_zero]

/-- If the operators raise degrees by one more than their place, the flow raises them by its
place. -/
theorem flow_mem {G : ℕ → Submodule K M} (h : ∀ j d, ∀ x ∈ G d, l j x ∈ G (d + j + 1)) {d : ℕ}
    {x : M} (hx : x ∈ G d) (p : ℕ) : flow l p x ∈ G (d + p) := by
  induction p using Nat.strong_induction_on with
  | _ p ih =>
    cases p with
    | zero => rwa [flow_zero_apply]
    | succ p =>
      have hsum : ((p + 1 : ℕ) : K) • flow l (p + 1) x ∈ G (d + (p + 1)) := by
        rw [flow_succ]
        refine Submodule.sum_mem _ fun q hq => ?_
        have hq := HasAntidiagonal.mem_antidiagonal.1 hq
        have hdegree : d + (p + 1) = d + q.2 + q.1 + 1 := by omega
        rw [hdegree]
        exact h q.1 _ _ (ih q.2 (by omega))
      exact (Submodule.smul_mem_iff _ (cast_succ_ne_zero p)).1 hsum

theorem transport_congr {l' : ℕ → Module.End K M} {i : ℕ} (h : ∀ j < i, l j = l' j)
    (s : ℕ → M) : transport l s i = transport l' s i := by
  rw [transport_apply, transport_apply]
  refine sum_congr rfl fun q hq => ?_
  have hsum := HasAntidiagonal.mem_antidiagonal.1 hq
  rw [flow_congr fun j hj => h j (by omega)]

theorem transport_map {l' : ℕ → Module.End K N} {φ : M →ₗ[K] N}
    (h : ∀ j x, φ (l j x) = l' j (φ x)) (s : ℕ → M) (i : ℕ) :
    φ (transport l s i) = transport l' (fun q => φ (s q)) i := by
  rw [transport_apply, transport_apply, map_sum]
  exact sum_congr rfl fun q _ => flow_map h _ _

theorem transport_of_map_eq_zero {s : ℕ → M} (h : ∀ j q, l j (s q) = 0) (i : ℕ) :
    transport l s i = s i := by
  rw [transport_eq_add, sum_eq_zero, add_zero]
  intro q hq
  have hlt := mem_erase_antidiagonal hq
  exact flow_eq_zero (fun j => h j q.2) (by omega)

theorem transport_mem {G : ℕ → Submodule K M} (h : ∀ j d, ∀ x ∈ G d, l j x ∈ G (d + j + 1))
    {s : ℕ → M} {d : ℕ} (hs : ∀ q, s q ∈ G (q + d)) (i : ℕ) : transport l s i ∈ G (i + d) := by
  rw [transport_apply]
  refine Submodule.sum_mem _ fun q hq => ?_
  have hdegree : i + d = q.2 + d + q.1 := by
    have hsum := HasAntidiagonal.mem_antidiagonal.1 hq
    omega
  rw [hdegree]
  exact flow_mem h (hs q.2) q.1

theorem rise_transport (s : ℕ → M) (i : ℕ) :
    ((i + 1 : ℕ) : K) • transport l s (i + 1) =
      transport l (rise (K := K) s) i + ∑ q ∈ antidiagonal i, l q.1 (transport l s q.2) := by
  have hseries : ∑ p ∈ antidiagonal i, ((p.2 + 1 : ℕ) : K) • flow l p.1 (s (p.2 + 1)) =
      transport l (rise (K := K) s) i := by
    rw [transport_apply]
    exact sum_congr rfl fun p _ => (map_smul _ _ _).symm
  have hflow : ∑ p ∈ antidiagonal i, ((p.1 + 1 : ℕ) : K) • flow l (p.1 + 1) (s p.2) =
      ∑ q ∈ antidiagonal i, l q.1 (transport l s q.2) := by
    have hassoc := sum_antidiagonal_assoc (fun a b c => l a (flow l b (s c))) i
    simp only [transport_apply, map_sum, hassoc]
    exact sum_congr rfl fun p _ => flow_succ _ _
  rw [transport_apply, succ_smul_sum_antidiagonal fun a b => flow l a (s b), hseries, hflow,
    add_comm]

/-- A product that the operators act on as derivations is carried along factor by factor. -/
theorem transport_convolve {l₁ : ℕ → Module.End K L} {l₂ : ℕ → Module.End K M}
    {l₃ : ℕ → Module.End K N} {B : L →ₗ[K] M →ₗ[K] N}
    (h : ∀ j x y, l₃ j (B x y) = B (l₁ j x) y + B x (l₂ j y)) (x : ℕ → L) (y : ℕ → M) (i : ℕ) :
    transport l₃ (convolve B x y) i = convolve B (transport l₁ x) (transport l₂ y) i := by
  -- both sides start with the product of the first vectors, and solve one differential equation
  induction i using Nat.strong_induction_on generalizing x y with
  | _ i ih =>
    cases i with
    | zero => simp only [transport_zero, convolve, Nat.antidiagonal_zero, sum_singleton]
    | succ i =>
      have hfirst : convolve B (rise (K := K) (transport l₁ x)) (transport l₂ y) i =
          convolve B (transport l₁ (rise (K := K) x)) (transport l₂ y) i +
            ∑ q ∈ antidiagonal i, ∑ r ∈ antidiagonal q.2,
              B (l₁ q.1 (transport l₁ x r.1)) (transport l₂ y r.2) := by
        rw [sum_antidiagonal_assoc fun a b c => B (l₁ a (transport l₁ x b)) (transport l₂ y c),
          convolve, convolve, ← sum_add_distrib]
        refine sum_congr rfl fun p _ => ?_
        rw [rise_apply, rise_transport, map_add, LinearMap.add_apply, map_sum, LinearMap.sum_apply]
      have hsecond : convolve B (transport l₁ x) (rise (K := K) (transport l₂ y)) i =
          convolve B (transport l₁ x) (transport l₂ (rise (K := K) y)) i +
            ∑ q ∈ antidiagonal i, ∑ r ∈ antidiagonal q.2,
              B (transport l₁ x r.1) (l₂ q.1 (transport l₂ y r.2)) := by
        rw [sum_antidiagonal_left_comm fun a b c => B (transport l₁ x b) (l₂ a (transport l₂ y c)),
          convolve, convolve, ← sum_add_distrib]
        refine sum_congr rfl fun p _ => ?_
        rw [rise_apply, rise_transport, map_add, map_sum]
      have hlower : ∑ q ∈ antidiagonal i, l₃ q.1 (transport l₃ (convolve B x y) q.2) =
          ∑ q ∈ antidiagonal i, ∑ r ∈ antidiagonal q.2,
              B (l₁ q.1 (transport l₁ x r.1)) (transport l₂ y r.2) +
            ∑ q ∈ antidiagonal i, ∑ r ∈ antidiagonal q.2,
              B (transport l₁ x r.1) (l₂ q.1 (transport l₂ y r.2)) := by
        rw [← sum_add_distrib]
        refine sum_congr rfl fun q hq => ?_
        have hsum := HasAntidiagonal.mem_antidiagonal.1 hq
        rw [ih q.2 (by omega), convolve, map_sum, ← sum_add_distrib]
        exact sum_congr rfl fun r _ => h _ _ _
      apply smul_right_injective N (cast_succ_ne_zero (K := K) i)
      dsimp only
      rw [rise_transport, rise_convolve, map_add, Pi.add_apply, ih i i.lt_succ_self,
        ih i i.lt_succ_self, hlower, ← rise_apply (K := K) (convolve B _ _), rise_convolve,
        Pi.add_apply, hfirst, hsecond]
      abel

theorem entry_congr {l' : ℕ → Module.End K M} {i : ℕ} (h : ∀ j < i, l j = l' j) (s : ℕ → M)
    (m : ℕ) : entry l s i m = entry l' s i m := by
  rw [entry, entry, transport_congr h]

theorem entry_succ (s : ℕ → M) (i m : ℕ) :
    entry l s (i + 1) m = entry l s i (m + 1) +
      ∑ q ∈ antidiagonal i,
        ((i.choose q.1 : K) * q.1.factorial) • l q.1 (entry l s q.2 m) := by
  have hrise := rise_transport (l := l) ((rise (K := K) ^ m) s) i
  have hpow : rise (K := K) ((rise (K := K) ^ m) s) = (rise (K := K) ^ (m + 1)) s := by
    rw [pow_succ', Module.End.mul_apply]
  rw [hpow] at hrise
  rw [entry, Nat.factorial_succ, Nat.cast_mul, mul_comm, mul_smul, hrise, smul_add, smul_sum]
  refine congrArg₂ (· + ·) rfl (sum_congr rfl fun q hq => ?_)
  have hchoose : (i.factorial : K) = i.choose q.1 * q.1.factorial * q.2.factorial := by
    have hsum := HasAntidiagonal.mem_antidiagonal.1 hq
    have h := Nat.choose_mul_factorial_mul_factorial (n := i) (k := q.1) (by omega)
    rw [show i - q.1 = q.2 by omega] at h
    exact_mod_cast h.symm
  rw [entry, map_smul, smul_smul, hchoose]

/-- One operator more changes the first entry that it takes part in by what it does to the
first row. -/
theorem entry_succ_of_eq {l' : ℕ → Module.End K M} {i : ℕ} (h : ∀ j < i, l j = l' j)
    (hzero : l i = 0) (s : ℕ → M) (m : ℕ) :
    entry l' s (i + 1) m = entry l s (i + 1) m + (i.factorial : K) • l' i (entry l' s 0 m) := by
  rw [entry_succ, entry_succ, ← entry_congr h, Nat.sum_antidiagonal_eq_sum_range_succ_mk,
    Nat.sum_antidiagonal_eq_sum_range_succ_mk, sum_range_succ, sum_range_succ, hzero,
    LinearMap.zero_apply, smul_zero, add_zero, Nat.choose_self, Nat.cast_one, one_mul,
    Nat.sub_self, ← add_assoc]
  refine congrArg₂ (· + ·) (congrArg₂ (· + ·) rfl (sum_congr rfl fun k hk => ?_)) rfl
  have hlt := mem_range.1 hk
  dsimp only
  rw [h k hlt, entry_congr fun j hj => h j (by omega)]

theorem entry_mem {G : ℕ → Submodule K M} (h : ∀ j d, ∀ x ∈ G d, l j x ∈ G (d + j + 1))
    {s : ℕ → M} {d : ℕ} (hs : ∀ q, s q ∈ G (q + d)) (i m : ℕ) : entry l s i m ∈ G (i + (m + d)) := by
  refine Submodule.smul_mem _ _ (transport_mem h (fun q => ?_) i)
  have hpow : (q.factorial : K) • (rise (K := K) ^ m) s q ∈ G (q + (m + d)) := by
    rw [factorial_smul_rise_pow, show q + (m + d) = m + q + d by omega]
    exact Submodule.smul_mem _ _ (hs _)
  exact (Submodule.smul_mem_iff _ (cast_factorial_ne_zero q)).1 hpow

theorem rise_pow_eq_zero {s : ℕ → M} {m q : ℕ} (h : s (m + q) = 0) :
    (rise (K := K) ^ m) s q = 0 := by
  have hpow := factorial_smul_rise_pow (K := K) s m q
  rw [h, smul_zero] at hpow
  exact (smul_eq_zero.1 hpow).resolve_left (cast_factorial_ne_zero q)

theorem entry_eq_zero {s : ℕ → M} {n : ℕ} (h : ∀ q < n, s q = 0) {i m : ℕ} (hn : i + m < n) :
    entry l s i m = 0 := by
  have hrise : ∀ q ≤ i, (rise (K := K) ^ m) s q = 0 := fun q _ =>
    rise_pow_eq_zero (h (m + q) (by omega))
  rw [entry, transport_eq_self l fun q hq => hrise q hq.le, hrise i le_rfl, smul_zero]

/-- On the antidiagonal of the first vector that is not zero, all entries are equal. -/
theorem entry_eq_factorial_smul {s : ℕ → M} {n : ℕ} (h : ∀ q < n, s q = 0) {i m : ℕ}
    (hn : i + m = n) : entry l s i m = (n.factorial : K) • s n := by
  have hrise : ∀ q < i, (rise (K := K) ^ m) s q = 0 := fun q _ =>
    rise_pow_eq_zero (h (m + q) (by omega))
  rw [entry, transport_eq_self l hrise, factorial_smul_rise_pow, show m + i = n by omega]

end LieSeries

end LieNormalForm

end
