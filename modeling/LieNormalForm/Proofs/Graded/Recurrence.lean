import LieNormalForm.Proofs.LieSeries.Fields
import LieNormalForm.Proofs.Graded.Table
import LieNormalForm.Graded.Series

/-!
# The Lie recurrence over exact coefficients

The generator terms of a recurrence stand for operators: term `j` acts as `j!` times the
operator `l_j`. Then the entries of a table are those of the triangle of the Lie series of `l`,
and sums with inverse factorials take the factorials off again.
-/

noncomputable section

open Finset LieNormalForm.LieSeries

namespace LieNormalForm

variable {C W : Type} [Weight W] [ExactField C W]

namespace Tuple

theorem value_scaleWeight_factorial (f : Tuple C) (m : ℕ) :
    (f.scaleWeight (Weight.factorial m : W)).value = (m.factorial : C) • f.value := by
  rw [scaleWeight, value_scale, ExactField.ofWeight_factorial]

theorem value_seed (f : Tuple C) (offset m : ℕ) :
    (f.seed offset m).value = (m.factorial : C) • parts offset f.value m := by
  rw [seed, value_scaleWeight_factorial, value_homogeneousPart]
  rfl

end Tuple

/-- An entry that stands for entry `(i, m)` of the triangle over a series. -/
structure IsEntry (len n : ℕ) (l : ℕ → Module.End C (Sequence C)) (s : ℕ → Sequence C) (i m : ℕ)
    (e : Tuple C) : Prop where
  shaped : e.Shaped len n
  value : e.value = entry l s i m

namespace LieOperator

/-- The generator terms, counted from number `j`, stand for operators. -/
def Represents (op : LieOperator) (n : ℕ) (l : ℕ → Module.End C (Sequence C)) (j : ℕ)
    (ws : List (Tuple C)) : Prop :=
  ∀ k w, ws[k]? = some w →
    w.Shaped n n ∧ ∀ g, op.act w.value g = ((j + k).factorial : C) • l (j + k) g

theorem Represents.head {op : LieOperator} {n : ℕ} {l : ℕ → Module.End C (Sequence C)} {j : ℕ}
    {w : Tuple C} {ws : List (Tuple C)} (h : op.Represents n l j (w :: ws)) :
    w.Shaped n n ∧ ∀ g, op.act w.value g = (j.factorial : C) • l j g := h 0 w rfl

theorem Represents.tail {op : LieOperator} {n : ℕ} {l : ℕ → Module.End C (Sequence C)} {j : ℕ}
    {w : Tuple C} {ws : List (Tuple C)} (h : op.Represents n l j (w :: ws)) :
    op.Represents n l (j + 1) ws := by
  intro k w' hk
  rw [Nat.add_assoc, Nat.add_comm 1 k]
  exact h (k + 1) w' hk

/-- The seeds of a generator stand for its family of operators. -/
theorem represents_seeds (op : LieOperator) {n : ℕ} {u : Tuple C} (hu : u.Shaped n n)
    (count : ℕ) : op.Represents n (op.family u.value) 0 (u.seeds 2 count) := by
  intro k w hk
  obtain rfl := Tuple.seeds_getElem? hk
  refine ⟨hu.seed 2 k, fun g => ?_⟩
  rw [Tuple.value_seed, op.act_smul, Nat.zero_add]
  rfl

theorem sum_range_choose {N : Type*} [AddCommGroup N] [Module C N] {i count : ℕ} (f : ℕ → ℕ → N)
    (h : ∀ k r, count ≤ k → k ≤ i → f k r = 0) :
    ∑ k ∈ range count, ((i.choose k : C) * k.factorial) • f k (i - k) =
      ∑ q ∈ antidiagonal i, ((i.choose q.1 : C) * q.1.factorial) • f q.1 q.2 := by
  rw [Nat.sum_antidiagonal_eq_sum_range_succ_mk]
  rcases Nat.le_total count (i + 1) with hle | hle
  · refine sum_subset (range_mono hle) fun k hk hnot => ?_
    rw [mem_range] at hk hnot
    rw [h k _ (by omega) (by omega), smul_zero]
  · refine (sum_subset (range_mono hle) fun k _ hnot => ?_).symm
    rw [mem_range] at hnot
    rw [Nat.choose_eq_zero_of_lt (by omega), Nat.cast_zero, zero_mul, zero_smul]

variable [CharZero C]

section Terms

variable {op : LieOperator} {len n : ℕ} {l : ℕ → Module.End C (Sequence C)}
  {F : ℕ → ℕ → Sequence C} {t : GradedTable (Tuple C)} {i m : ℕ}

theorem addTerms_spec (hlen : op = .bracket → len = n)
    (ht : ∀ k ≤ i, ∃ g, t.get k m = .ok g ∧ g.Shaped len n ∧ g.value = F k m) {j : ℕ}
    {ws : List (Tuple C)} (hws : op.Represents n l j ws) {e : Tuple C} (he : e.Shaped len n) :
    ∃ e', addTerms op t i m j ws e = .ok e' ∧ e'.Shaped len n ∧
      e'.value = e.value + ∑ k ∈ range ws.length,
        ((i.choose (j + k) : C) * (j + k).factorial) • l (j + k) (F (i - (j + k)) m) := by
  -- past number `i` the binomial coefficients vanish, so the early stop loses nothing
  induction ws generalizing j e with
  | nil => exact ⟨e, rfl, he, by rw [List.length_nil, range_zero, sum_empty, add_zero]⟩
  | cons w ws ih =>
    obtain ⟨hw, hact⟩ := hws.head
    unfold addTerms
    split
    · rename_i hij
      refine ⟨e, rfl, he, ?_⟩
      rw [sum_eq_zero, add_zero]
      intro k _
      rw [Nat.choose_eq_zero_of_lt (by omega), Nat.cast_zero, zero_mul, zero_smul]
    · obtain ⟨g, hget, hg, hvalue⟩ := ht (i - j) (by omega)
      have hterm : (op.apply w g).value = (j.factorial : C) • l j (F (i - j) m) := by
        rw [Tuple.value_apply op hw hg hlen, hact, hvalue]
      have hsplit : ∑ k ∈ range (w :: ws).length,
          ((i.choose (j + k) : C) * (j + k).factorial) • l (j + k) (F (i - (j + k)) m) =
            (i.choose j : C) • (op.apply w g).value + ∑ k ∈ range ws.length,
              ((i.choose (j + 1 + k) : C) * (j + 1 + k).factorial) •
                l (j + 1 + k) (F (i - (j + 1 + k)) m) := by
        rw [List.length_cons, sum_range_succ', add_comm, hterm, smul_smul]
        refine congrArg₂ (· + ·) rfl (sum_congr rfl fun k _ => ?_)
        rw [show j + (k + 1) = j + 1 + k by omega]
      simp only [hget]
      split
      · rename_i hzero
        obtain ⟨e', hok, hshape, hsum⟩ := ih hws.tail he
        refine ⟨e', hok, hshape, ?_⟩
        have hnone : (op.apply w g).value = 0 := by
          rw [Bool.or_eq_true, Tuple.isZero_iff_value hw, Tuple.isZero_iff_value hg] at hzero
          rw [Tuple.value_apply op hw hg hlen]
          rcases hzero with hz | hz
          · rw [hz, op.act_zero, LinearMap.zero_apply]
          · rw [hz, map_zero]
        rw [hsum, hsplit, hnone, smul_zero, zero_add]
      · have happly := (Tuple.Shaped.apply op hw hg hlen).scaleWeight (Weight.binomial i j : W)
        obtain ⟨e', hok, hshape, hsum⟩ := ih hws.tail (he.add happly)
        refine ⟨e', hok, hshape, ?_⟩
        rw [hsum, Tuple.value_add (he.size_eq.trans happly.size_eq.symm), Tuple.scaleWeight,
          Tuple.value_scale, ExactField.ofWeight_binomial, hsplit, add_assoc]

theorem recurrence_spec (hlen : op = .bracket → len = n)
    (ht : ∀ k ≤ i, ∃ g, t.get k m = .ok g ∧ g.Shaped len n ∧ g.value = F k m)
    (hnext : ∃ g, t.get i (m + 1) = .ok g ∧ g.Shaped len n ∧ g.value = F i (m + 1))
    {ws : List (Tuple C)} (hws : op.Represents n l 0 ws) :
    ∃ e, recurrence op ws t i m = .ok e ∧ e.Shaped len n ∧
      e.value = F i (m + 1) + ∑ k ∈ range ws.length,
        ((i.choose k : C) * k.factorial) • l k (F (i - k) m) := by
  obtain ⟨g, hget, hg, hvalue⟩ := hnext
  obtain ⟨e, hok, he, hsum⟩ := addTerms_spec hlen ht hws hg
  refine ⟨e, ?_, he, ?_⟩
  · simp only [recurrence, hget, hok]
  · simp only [hsum, hvalue, Nat.zero_add]

end Terms

/-- With all generator terms that are not zero the recurrence leads from one row of entries to
the next. -/
theorem recurrence_isEntry {op : LieOperator} {len n : ℕ} {l : ℕ → Module.End C (Sequence C)}
    {s : ℕ → Sequence C} {t : GradedTable (Tuple C)} {N i : ℕ} (hlen : op = .bracket → len = n)
    (ht : t.FilledTo (IsEntry len n l s) N (i + 1)) (hi : i + 1 ≤ N) {ws : List (Tuple C)}
    (hws : op.Represents n l 0 ws) (hcount : ∀ k, ws.length ≤ k → k ≤ i → l k = 0) :
    ∃ e, recurrence op ws t i (N - (i + 1)) = .ok e ∧
      IsEntry len n l s (i + 1) (N - (i + 1)) e := by
  have hentry : ∀ k m, k + m < N ∨ k + m = N ∧ k < i + 1 →
      ∃ g, t.get k m = .ok g ∧ g.Shaped len n ∧ g.value = entry l s k m := by
    intro k m hk
    obtain ⟨g, hget, hg⟩ := ht k m hk
    exact ⟨g, hget, hg.shaped, hg.value⟩
  obtain ⟨e, hok, he, hsum⟩ := recurrence_spec (F := entry l s) (m := N - (i + 1)) hlen
    (fun k hk => hentry k _ (by omega)) (hentry i _ (by omega)) hws
  refine ⟨e, hok, he, ?_⟩
  have hmissing : ∀ k r, ws.length ≤ k → k ≤ i → l k (entry l s r (N - (i + 1))) = 0 := by
    intro k r hk hki
    rw [hcount k hk hki, LinearMap.zero_apply]
  rw [hsum, sum_range_choose (fun k r => l k (entry l s r (N - (i + 1)))) hmissing, entry_succ]

end LieOperator

namespace Tuple

theorem weightedSumFrom_value {len n : ℕ} {v : ℕ → Sequence C} [CharZero C] {i : ℕ}
    {sum : Tuple C} {fs : List (Tuple C)} (hsum : sum.Shaped len n)
    (hfs : ∀ k f, fs[k]? = some f →
      f.Shaped len n ∧ f.value = ((i + k).factorial : C) • v (i + k)) :
    (weightedSumFrom i sum fs).Shaped len n ∧
      (weightedSumFrom i sum fs).value = sum.value + ∑ k ∈ range fs.length, v (i + k) := by
  induction fs generalizing i sum with
  | nil => exact ⟨hsum, by rw [List.length_nil, range_zero, sum_empty, add_zero]; rfl⟩
  | cons f fs ih =>
    obtain ⟨hf, hvalue⟩ := hfs 0 f rfl
    have hscaled := hf.scaleWeight (Weight.inverseFactorial i : W)
    have hterm : (f.scaleWeight (Weight.inverseFactorial i : W)).value = v i := by
      rw [scaleWeight, value_scale, ExactField.ofWeight_inverseFactorial, hvalue, Nat.add_zero,
        inv_smul_smul₀ (cast_factorial_ne_zero i)]
    have hfs' : ∀ k g, fs[k]? = some g →
        g.Shaped len n ∧ g.value = ((i + 1 + k).factorial : C) • v (i + 1 + k) := by
      intro k g hk
      rw [show i + 1 + k = i + (k + 1) by omega]
      exact hfs (k + 1) g hk
    obtain ⟨hshape, hrest⟩ := ih (hsum.add hscaled) hfs'
    refine ⟨hshape, ?_⟩
    rw [weightedSumFrom, hrest, value_add (hsum.size_eq.trans hscaled.size_eq.symm), hterm,
      List.length_cons, sum_range_succ', Nat.add_zero, add_assoc, add_comm (v i)]
    refine congrArg₂ (· + ·) rfl (congrArg₂ (· + ·) (sum_congr rfl fun k _ => ?_) rfl)
    rw [show i + 1 + k = i + (k + 1) by omega]

theorem weightedSum_value [CharZero C] {len n : ℕ} {v : ℕ → Sequence C} {like : Tuple C}
    (hlike : like.Shaped len n) {fs : List (Tuple C)}
    (hfs : ∀ k f, fs[k]? = some f → f.Shaped len n ∧ f.value = (k.factorial : C) • v k) :
    (weightedSum like fs).Shaped len n ∧
      (weightedSum like fs).value = ∑ k ∈ range fs.length, v k := by
  have hzeros : (zeros like.size like.nvars : Tuple C).Shaped len n := by
    rw [hlike.size_eq, hlike.nvars_eq]
    exact .zeros len n
  obtain ⟨hshape, hsum⟩ := weightedSumFrom_value (i := 0) (v := v) hzeros fun k f hk => by
    rw [Nat.zero_add]
    exact hfs k f hk
  refine ⟨hshape, ?_⟩
  rw [weightedSum, hsum, value_zeros, zero_add]
  exact sum_congr rfl fun k _ => by rw [Nat.zero_add]

end Tuple

end LieNormalForm

end
