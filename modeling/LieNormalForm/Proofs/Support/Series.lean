import LieNormalForm.Proofs.Support.Tuple
import LieNormalForm.Proofs.Graded.Table

/-!
# Degrees in the Lie recurrence

If generator term `j` has degree `j + 2` and the entries of a table have the degrees of their
diagonals, then the recurrence finds all the entries that it asks for, and what it makes of them
has the degree of the next diagonal.
-/

namespace LieNormalForm

variable {C W : Type} [Coefficient C W] {len n : ℕ}

namespace Tuple

section Weighted

variable [Weight W]

theorem Framed.graded_seed {f : Tuple C} (h : f.Framed len n) (offset m : ℕ) :
    (f.seed offset m).Graded len n (m + offset) := (h.graded_homogeneousPart _).scaleWeight _

theorem Shaped.graded_seed {f : Tuple C} (h : f.Shaped len n) (offset m : ℕ) :
    (f.seed offset m).Graded len n (m + offset) := h.framed.graded_seed offset m

theorem weightedSumFrom_supported {P : ℕ → Monomial → Prop} {i : ℕ} {sum : Tuple C}
    {fs : List (Tuple C)} (hsum : sum.Supported P) (hfs : ∀ f ∈ fs, f.Supported P) :
    (weightedSumFrom i sum fs).Supported P := by
  induction fs generalizing i sum with
  | nil => exact hsum
  | cons f fs ih =>
    obtain ⟨hf, hfs⟩ := List.forall_mem_cons.1 hfs
    exact ih (hsum.add (hf.scaleWeight _)) hfs

theorem weightedSum_supported {P : ℕ → Monomial → Prop} (like : Tuple C) {fs : List (Tuple C)}
    (hfs : ∀ f ∈ fs, f.Supported P) : (weightedSum like fs).Supported P :=
  weightedSumFrom_supported (.zeros _ _) hfs

theorem weightedSumFrom_map_filterTerms {keep : Monomial → Bool} {i : ℕ} {sum : Tuple C}
    {fs : List (Tuple C)} (hfs : ∀ f ∈ fs, f.Supported fun _ m => keep m = false) :
    ((weightedSumFrom i sum fs).map fun p => p.filterTerms keep) =
      sum.map fun p => p.filterTerms keep := by
  induction fs generalizing i sum with
  | nil => rfl
  | cons f fs ih =>
    obtain ⟨hf, hfs⟩ := List.forall_mem_cons.1 hfs
    rw [weightedSumFrom, ih hfs, map_filterTerms_add (hf.scaleWeight _)]

theorem seed_eq_of_band {f g : Tuple C} {low high offset m : ℕ}
    (h : f.band low high = g.band low high) (hlow : low ≤ m + offset) (hhigh : m + offset ≤ high) :
    f.seed offset m = g.seed offset m := by
  rw [seed, seed, ← homogeneousPart_band hlow hhigh f, h, homogeneousPart_band hlow hhigh g]

theorem seed_eq_of_truncate {f g : Tuple C} {r offset m : ℕ} (h : f.truncate r = g.truncate r)
    (hm : m + offset ≤ r) : f.seed offset m = g.seed offset m := by
  rw [truncate_eq_band, truncate_eq_band] at h
  exact seed_eq_of_band h (Nat.zero_le _) hm

theorem seeds_eq_of_truncate {f g : Tuple C} {r offset count : ℕ}
    (h : f.truncate r = g.truncate r) (hcount : count + offset ≤ r + 1) :
    f.seeds offset count = g.seeds offset count := by
  refine List.map_congr_left fun m hm => seed_eq_of_truncate h ?_
  have hlt := List.mem_range.1 hm
  omega

theorem seeds_add (f : Tuple C) (offset a b : ℕ) : f.seeds offset (a + b) =
    f.seeds offset a ++ (List.range b).map fun m => f.seed offset (a + m) := by
  rw [seeds, seeds, List.range_add, List.map_append, List.map_map]
  rfl

theorem weightedSumFrom_append {i : ℕ} {sum : Tuple C} (fs gs : List (Tuple C)) :
    weightedSumFrom i sum (fs ++ gs) =
      weightedSumFrom (i + fs.length) (weightedSumFrom i sum fs) gs := by
  induction fs generalizing i sum with
  | nil => rfl
  | cons f fs ih =>
    rw [List.cons_append, weightedSumFrom, ih, List.length_cons, weightedSumFrom, Nat.add_right_comm,
      Nat.add_assoc]

/-- Cutting a sum of homogeneous terms off at a degree leaves out its last summands. -/
theorem truncate_weightedSum {like : Tuple C} {fs : List (Tuple C)} {b r : ℕ}
    (h : ∀ k (f : Tuple C), fs[k]? = some f → f.Supported fun _ m => m.degree = k + b) :
    (weightedSum like fs).truncate r = weightedSum like (fs.take (r + 1 - b)) := by
  have hsplit : weightedSum like fs = weightedSumFrom (0 + (fs.take (r + 1 - b)).length)
      (weightedSum like (fs.take (r + 1 - b))) (fs.drop (r + 1 - b)) := by
    rw [weightedSum, weightedSum, ← weightedSumFrom_append, List.take_append_drop]
  rw [hsplit]
  refine (weightedSumFrom_map_filterTerms fun f hf => ?_).trans ?_
  · obtain ⟨k, hk⟩ := List.mem_iff_getElem?.1 hf
    rw [List.getElem?_drop] at hk
    exact (h _ f hk).imp fun _ m hm => decide_eq_false (by omega)
  · refine map_filterTerms_eq_self (weightedSum_supported like fun f hf => ?_)
    obtain ⟨k, hk⟩ := List.mem_iff_getElem?.1 hf
    rw [List.getElem?_take] at hk
    split at hk
    · exact (h k f hk).imp fun _ m hm => decide_eq_true (by omega)
    · cases hk

/-- The first column of a table and of a larger one that it is the beginning of: the sum of the
shorter column is the sum of the longer one, cut off. -/
theorem firstColumn_truncate (like : Tuple C) {t t₀ : GradedTable (Tuple C)} {b r k count : ℕ}
    (ht : t.FilledTo (fun i m e => e.Graded len n (i + m + b)) count 0) (hagree : t.Agree k t₀)
    (hk : k ≤ count) (hr : r + 1 - b = k) :
    ∃ column, t.firstColumn count = .ok column ∧ t₀.firstColumn k = .ok (column.take k) ∧
      (weightedSum like column).truncate r = weightedSum like (column.take k) := by
  obtain ⟨column, hcolumn, -, hentries⟩ := ht.firstColumn (Nat.le_refl count)
  refine ⟨column, hcolumn, ?_, ?_⟩
  · rw [← hagree.firstColumn (Nat.le_refl k)]
    exact GradedTable.firstColumn_take hcolumn hk
  · rw [← hr]
    exact truncate_weightedSum fun i e hi =>
      (hentries i e hi).supported.imp fun _ _ hm => hm.2

end Weighted

theorem Graded.directionalDerivative_constant {g : Tuple C} (hg : g.Graded len n 0) (w : Tuple C) :
    (g.directionalDerivative w).Supported fun _ _ => False := by
  refine hg.supported.directionalDerivative (Q := fun _ _ => True) (fun _ _ _ => trivial) ?_
  intro i j m m' k hm hlower _
  have hdegree := Monomial.degree_lower? hlower
  have hzero := hm.2
  omega

end Tuple

namespace LieOperator

theorem apply_graded (op : LieOperator) {a b d : ℕ} {w g : Tuple C} (hdegree : a + b = d + 1)
    (hw : w.Graded n n a) (hg : g.Graded len n b) (hlen : op = .bracket → len = n) :
    (op.apply w g).Graded len n d := by
  cases op with
  | bracket =>
    obtain rfl := hlen rfl
    exact hw.bracket hdegree hg
  | negatedDerivative => exact (hg.directionalDerivative (by omega) hw).neg

/-- The generator terms, counted from number `j`, have the degrees of a family. -/
def GradedFamily (n j : ℕ) (ws : List (Tuple C)) : Prop :=
  ∀ k (w : Tuple C), ws[k]? = some w → w.Graded n n (j + k + 2)

theorem GradedFamily.tail {j : ℕ} {w : Tuple C} {ws : List (Tuple C)}
    (h : GradedFamily n j (w :: ws)) : GradedFamily n (j + 1) ws := by
  intro k w' hk
  rw [Nat.add_right_comm j 1 k]
  exact h (k + 1) w' hk

variable [Weight W] {op : LieOperator} {t : GradedTable (Tuple C)} {i m b : ℕ}

theorem addTerms_graded (hlen : op = .bracket → len = n)
    (ht : ∀ k ≤ i, ∃ g, t.get k m = .ok g ∧ g.Graded len n (k + b)) {j : ℕ}
    {ws : List (Tuple C)} (hws : GradedFamily n j ws) {e : Tuple C}
    (he : e.Graded len n (i + 1 + b)) :
    ∃ e', addTerms op t i m j ws e = .ok e' ∧ e'.Graded len n (i + 1 + b) := by
  induction ws generalizing j e with
  | nil => exact ⟨e, rfl, he⟩
  | cons w ws ih =>
    unfold addTerms
    split
    · exact ⟨e, rfl, he⟩
    · rename_i hij
      obtain ⟨g, hget, hg⟩ := ht (i - j) (by omega)
      simp only [hget]
      split
      · exact ih hws.tail he
      · have hterm := op.apply_graded (d := i + 1 + b) (by omega) (hws 0 w rfl) hg hlen
        exact ih hws.tail (he.add (hterm.scaleWeight _))

/-- In a table whose entries have the degrees of their diagonals, the recurrence finds an entry
of the next diagonal. -/
theorem recurrence_graded {N : ℕ} (hlen : op = .bracket → len = n)
    (ht : t.FilledTo (fun k m e => e.Graded len n (k + m + b)) N (i + 1)) (hi : i + 1 ≤ N)
    {ws : List (Tuple C)} (hws : GradedFamily n 0 ws) :
    ∃ e, recurrence op ws t i (N - (i + 1)) = .ok e ∧ e.Graded len n (N + b) := by
  obtain ⟨g, hget, hg⟩ := ht i (N - (i + 1) + 1) (by omega)
  have hcolumn : ∀ k ≤ i, ∃ g, t.get k (N - (i + 1)) = .ok g ∧
      g.Graded len n (k + (N - (i + 1) + b)) := by
    intro k hk
    obtain ⟨g, hget, hg⟩ := ht k (N - (i + 1)) (by omega)
    exact ⟨g, hget, by rwa [← Nat.add_assoc]⟩
  have hdegree : i + (N - (i + 1) + 1) + b = i + 1 + (N - (i + 1) + b) := by omega
  rw [hdegree] at hg
  obtain ⟨e, hok, he⟩ := addTerms_graded hlen hcolumn hws hg
  refine ⟨e, ?_, ?_⟩
  · simp only [recurrence, hget, hok]
  · rwa [show N + b = i + 1 + (N - (i + 1) + b) by omega]

/-- What sums with weighted brackets keep, the recurrence keeps. -/
theorem recurrence_holds {P : Tuple C → Prop} {ws : List (Tuple C)}
    (hstep : ∀ w ∈ ws, ∀ (e g : Tuple C) (c : W), P e → P g → P (e + (op.apply w g).scaleWeight c))
    (ht : t.Holds P) {e : Tuple C} (h : recurrence op ws t i m = .ok e) : P e := by
  have hadd : ∀ (ws' : List (Tuple C)) (j : ℕ) (e₀ : Tuple C), (∀ w ∈ ws', w ∈ ws) → P e₀ →
      addTerms op t i m j ws' e₀ = .ok e → P e := by
    intro ws'
    induction ws' with
    | nil =>
      intro j e₀ _ he₀ h
      cases h
      exact he₀
    | cons w ws' ih =>
      intro j e₀ hmem he₀ h
      obtain ⟨hw, hrest⟩ := List.forall_mem_cons.1 hmem
      simp only [addTerms] at h
      split at h
      · cases h
        exact he₀
      · split at h
        · cases h
        · rename_i g hg
          split at h
          · exact ih _ _ hrest he₀ h
          · exact ih _ _ hrest (hstep w hw e₀ g _ he₀ (ht _ _ g hg)) h
  simp only [recurrence] at h
  split at h
  · cases h
  · rename_i e₀ he₀
    exact hadd ws 0 e₀ (fun _ hw => hw) (ht _ _ e₀ he₀) h

theorem addTerms_append {j : ℕ} {ws : List (Tuple C)} (h : i < j + ws.length) (vs : List (Tuple C))
    (e : Tuple C) : addTerms op t i m j (ws ++ vs) e = addTerms op t i m j ws e := by
  induction ws generalizing j e with
  | nil =>
    have hj : i < j := h
    cases vs with
    | nil => rfl
    | cons v vs => simp [addTerms, hj]
  | cons w ws ih =>
    have hlength : i < j + 1 + ws.length := by
      rw [List.length_cons] at h
      omega
    simp only [List.cons_append, addTerms, ih hlength]

/-- Row `i` reads no generator term from number `i + 1` on. -/
theorem recurrence_append {ws : List (Tuple C)} (h : i < ws.length) (vs : List (Tuple C)) :
    recurrence op (ws ++ vs) t i m = recurrence op ws t i m := by
  have hi : i < 0 + ws.length := by rwa [Nat.zero_add]
  simp only [recurrence, addTerms_append hi]

/-- The last generator term that row `i` reads acts on the entry of the first row. -/
theorem recurrence_concat {ws : List (Tuple C)} (hws : ws.length = i) {g : Tuple C}
    (hget : t.get 0 m = .ok g) (hg : g.Graded len n 0) (w : Tuple C) :
    negatedDerivative.recurrence (ws ++ [w]) t i m = negatedDerivative.recurrence ws t i m := by
  have hlast : ∀ (vs : List (Tuple C)) (j : ℕ) (e : Tuple C), j + vs.length = i →
      addTerms .negatedDerivative t i m j (vs ++ [w]) e =
        addTerms .negatedDerivative t i m j vs e := by
    intro vs
    induction vs with
    | nil =>
      -- what it adds is the derivative of a constant
      intro j e hj
      obtain rfl : j = i := hj
      have hterm : ((negatedDerivative.apply w g).scaleWeight
          (Weight.binomial j j : W)).Supported fun _ _ => False :=
        (hg.directionalDerivative_constant w).neg.scaleWeight _
      simp [addTerms, hget, Tuple.add_eq_self hterm]
    | cons v vs ih =>
      intro j e hj
      rw [List.length_cons] at hj
      simp only [List.cons_append, addTerms, ih (j + 1) _ (by omega)]
  simp only [recurrence, hlast ws 0 _ ((Nat.zero_add _).trans hws)]

end LieOperator

end LieNormalForm
