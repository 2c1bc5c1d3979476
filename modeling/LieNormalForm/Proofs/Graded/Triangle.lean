import LieNormalForm.Proofs.Graded.Recurrence
import LieNormalForm.Graded.Triangle

/-!
# The Lie triangle, forward and backward

Over exact coefficients `transform` sums up the transported parts of its subject, and `invert`
finds the subject whose transported parts are those of the target. The guess of a zero seed is
corrected on the whole antidiagonal by one tuple, because all entries depend on the seed with
weight one. Therefore each undoes the other up to the order.
-/

noncomputable section

open Finset LieNormalForm.LieSeries

namespace LieNormalForm

variable {C W : Type} [Weight W] [ExactField C W]

namespace LieTriangle

/-- The generators of a triangle stand for operators that raise degrees, up to an order, on
tuples of `len` functions in `n` variables. -/
structure Acts (L : LieTriangle C) (len n order : ℕ) (l : ℕ → Module.End C (Sequence C)) :
    Prop where
  length : L.operator = .bracket → len = n
  represents : L.operator.Represents n l 0 L.generators
  enough : order ≤ L.generators.length
  raises : ∀ j d, ∀ f ∈ homogeneous d, l j f ∈ homogeneous (d + j + 1)

theorem acts_ofGenerator {op : LieOperator} {u : Tuple C} {len n : ℕ} (hu : u.Shaped n n)
    (hlen : op = .bracket → len = n) (order : ℕ) :
    (ofGenerator op u order).Acts len n order (op.family u.value) := by
  refine ⟨hlen, op.represents_seeds hu _, ?_, op.family_mem u.value⟩
  rw [ofGenerator, Tuple.seeds_length]
  omega

theorem pi_single_of_ne {N q : ℕ} (c : Sequence C) (h : q ≠ N) :
    (Pi.single N c : ℕ → Sequence C) q = 0 := Function.update_of_ne h _ _

theorem transport_add_single {l : ℕ → Module.End C (Sequence C)} {σ : ℕ → Sequence C} {N i : ℕ}
    (c : Sequence C) (h : i ≤ N) :
    transport l (σ + Pi.single N c) i = transport l σ i + if i = N then c else 0 := by
  rw [map_add, Pi.add_apply, transport_eq_self l fun q hq => pi_single_of_ne c (by omega)]
  split
  · rename_i hN
    rw [hN, Pi.single_eq_same]
  · rename_i hN
    rw [pi_single_of_ne c hN]

variable [CharZero C]

section Filling

variable {L : LieTriangle C} {len n order : ℕ} {l : ℕ → Module.End C (Sequence C)}
  {s : ℕ → Sequence C}

theorem addDiagonal_filled (h : L.Acts len n order l) {t : GradedTable (Tuple C)} {N : ℕ}
    (ht : t.FilledTo (IsEntry len n l s) N 0) (hN : N ≤ order) {seed : Tuple C}
    (hseed : seed.Shaped len n) (hvalue : seed.value = (N.factorial : C) • s N) :
    ∃ t', L.addDiagonal t N seed = .ok t' ∧ t'.FilledTo (IsEntry len n l s) N (N + 1) := by
  have hfirst : IsEntry len n l s 0 N seed := ⟨hseed, by rw [hvalue, entry_zero_left]⟩
  refine (ht.insert (Nat.zero_le N) hfirst).fillRows (fun i hi t' ht' => ?_) le_rfl
  have henough := h.enough
  exact LieOperator.recurrence_isEntry h.length ht' hi h.represents fun k hk hki => by omega

theorem table_filled (h : L.Acts len n order l) {subject : Tuple C} (hs : subject.Shaped len n)
    {count : ℕ} (hcount : count ≤ order + 1) :
    ∃ t, L.table subject count = .ok t ∧
      t.FilledTo (IsEntry len n l (parts 0 subject.value)) count 0 := by
  induction count with
  | zero => exact ⟨.empty, rfl, .empty _⟩
  | succ N ih =>
    obtain ⟨t, htable, ht⟩ := ih (by omega)
    obtain ⟨t', hadd, ht'⟩ := addDiagonal_filled h ht (by omega) (hs.seed 0 N)
      (Tuple.value_seed subject 0 N)
    refine ⟨t', ?_, ht'.next⟩
    simp only [table, htable, hadd]

/-- The transform of a subject is the sum of its transported parts. -/
theorem transform_value (h : L.Acts len n order l) {subject : Tuple C}
    (hs : subject.Shaped len n) :
    ∃ g, L.transform subject order = .ok g ∧ g.Shaped len n ∧
      g.value = ∑ i ∈ range (order + 1), transport l (parts 0 subject.value) i := by
  obtain ⟨t, htable, ht⟩ := table_filled h hs le_rfl
  obtain ⟨column, hcolumn, hlength, hentries⟩ := ht.firstColumn le_rfl
  obtain ⟨hshape, hsum⟩ := Tuple.weightedSum_value
    (v := transport l (parts 0 subject.value)) hs
    fun k f hk => ⟨(hentries k f hk).shaped, (hentries k f hk).value⟩
  refine ⟨.weightedSum subject column, ?_, hshape, ?_⟩
  · simp only [transform, htable, hcolumn]
  · rw [hsum, hlength]

/-- Part by part up to the order, the transform is the transported subject. -/
theorem transform_parts (h : L.Acts len n order l) {subject : Tuple C}
    (hs : subject.Shaped len n) :
    ∃ g, L.transform subject order = .ok g ∧ g.Shaped len n ∧
      g.value = ∑ i ∈ range (order + 1), part i g.value ∧
      ∀ i ≤ order, part i g.value = transport l (parts 0 subject.value) i := by
  obtain ⟨g, hok, hg, hsum⟩ := transform_value h hs
  have hparts : ∀ i ≤ order, part i g.value = transport l (parts 0 subject.value) i := by
    intro i hi
    have hpart := part_sum (e := 0) (transport_mem h.raises (parts_mem 0 subject.value))
      (order + 1) i
    rw [if_pos (by omega)] at hpart
    rw [hsum]
    exact hpart
  refine ⟨g, hok, hg, hsum.trans (sum_congr rfl fun i hi => ?_), hparts⟩
  exact (hparts i (Nat.le_of_lt_succ (mem_range.1 hi))).symm

end Filling

/-- What is known after the parts below degree `N` of the subject were found: they make up a
series that is carried to the parts of the target. -/
structure Inverse.Reaches (len n : ℕ) (l : ℕ → Module.End C (Sequence C)) (target : Sequence C)
    (N : ℕ) (σ : ℕ → Sequence C) (s : Inverse C) : Prop where
  filled : s.table.FilledTo (IsEntry len n l σ) N 0
  shaped : s.subject.Shaped len n
  subject : s.subject.value = ∑ i ∈ range N, σ i
  above : ∀ q, N ≤ q → σ q = 0
  homogeneous : ∀ i, σ i ∈ homogeneous i
  transport : ∀ i < N, transport l σ i = part i target

section Inverting

variable {L : LieTriangle C} {len n order : ℕ} {l : ℕ → Module.End C (Sequence C)}

/-- One vector more at the end of a series changes the last antidiagonal only, and there every
entry in the same way. -/
theorem entry_add_single {σ : ℕ → Sequence C} {N i m : ℕ} (c : Sequence C) (h : i + m ≤ N) :
    entry l (σ + Pi.single N c) i m =
      entry l σ i m + if i + m = N then (N.factorial : C) • c else 0 := by
  have hzero : ∀ q < N, (Pi.single N c : ℕ → Sequence C) q = 0 :=
    fun q hq => pi_single_of_ne c hq.ne
  rw [entry_add]
  split
  · rename_i hN
    rw [entry_eq_factorial_smul hzero hN, Pi.single_eq_same]
  · rw [entry_eq_zero hzero (by omega)]

theorem invertStep_reaches (h : L.Acts len n order l) {target : Tuple C}
    (ht : target.Shaped len n) {N : ℕ} (hN : N ≤ order) {σ : ℕ → Sequence C} {s : Inverse C}
    (hs : s.Reaches len n l target.value N σ) :
    ∃ s', L.invertStep target N s = .ok s' ∧
      s'.Reaches len n l target.value (N + 1)
        (σ + Pi.single N (part N target.value - transport l σ N)) := by
  have hseed : (Tuple.zeros target.size target.nvars : Tuple C).Shaped len n := by
    rw [ht.size_eq, ht.nvars_eq]
    exact .zeros len n
  have hguess : (Tuple.zeros target.size target.nvars : Tuple C).value =
      (N.factorial : C) • σ N := by
    rw [Tuple.value_zeros, hs.above N le_rfl, smul_zero]
  -- the diagonal as it is without the part of degree `N`
  obtain ⟨t, hadd, hfilled⟩ := addDiagonal_filled h hs.filled hN hseed hguess
  obtain ⟨reached, hget, hreached⟩ := hfilled N 0 (by omega)
  have hshape := (ht.seed 0 N).sub hreached.shaped
  have hcorrection : (target.seed 0 N - reached).value =
      (N.factorial : C) • (part N target.value - transport l σ N) := by
    rw [Tuple.value_sub ((ht.seed 0 N).size_eq.trans hreached.shaped.size_eq.symm),
      Tuple.value_seed, hreached.value, entry_zero_right, ← smul_sub]
    rfl
  have hscaled := hshape.scaleWeight (Weight.inverseFactorial N : W)
  refine ⟨_, by simp only [invertStep, hadd, hget]; rfl, ?_, ?_, ?_, ?_, ?_, ?_⟩
  · refine (hfilled.mapDiagonal (fun i m e hi he => ⟨he.shaped, ?_⟩)
      fun i m e hi he => ⟨he.shaped.add hshape, ?_⟩).next
    · rw [he.value, entry_add_single _ hi.le, if_neg (by omega), add_zero]
    · rw [Tuple.value_add (he.shaped.size_eq.trans hshape.size_eq.symm), he.value, hcorrection,
        entry_add_single _ hi.le, if_pos hi]
  · exact hs.shaped.add hscaled
  · rw [Tuple.value_add (hs.shaped.size_eq.trans hscaled.size_eq.symm), hs.subject,
      Tuple.scaleWeight, Tuple.value_scale, hcorrection, ExactField.ofWeight_inverseFactorial,
      inv_smul_smul₀ (cast_factorial_ne_zero N), sum_range_succ, Pi.add_apply, Pi.single_eq_same,
      hs.above N le_rfl, zero_add]
    refine congrArg₂ (· + ·) (sum_congr rfl fun i hi => ?_) rfl
    rw [Pi.add_apply, pi_single_of_ne _ (by rw [mem_range] at hi; omega), add_zero]
  · intro q hq
    rw [Pi.add_apply, hs.above q (by omega), pi_single_of_ne _ (by omega), add_zero]
  · intro i
    rw [Pi.add_apply]
    refine Submodule.add_mem _ (hs.homogeneous i) ?_
    by_cases hi : i = N
    · rw [hi, Pi.single_eq_same]
      exact Submodule.sub_mem _ (part_mem _ _) (transport_mem (d := 0) h.raises hs.homogeneous N)
    · rw [pi_single_of_ne _ hi]
      exact Submodule.zero_mem _
  · intro i hi
    rw [transport_add_single _ (by omega)]
    split
    · rename_i hiN
      rw [hiN, add_sub_cancel]
    · rw [add_zero, hs.transport i (by omega)]

theorem inverseTable_reaches (h : L.Acts len n order l) {target : Tuple C}
    (ht : target.Shaped len n) {count : ℕ} (hcount : count ≤ order + 1) :
    ∃ s σ, L.inverseTable target count = .ok s ∧ s.Reaches len n l target.value count σ := by
  induction count with
  | zero =>
    refine ⟨_, 0, rfl, .empty _, ?_, ?_, fun q _ => rfl, fun i => Submodule.zero_mem _, ?_⟩
    · rw [ht.size_eq, ht.nvars_eq]
      exact .zeros len n
    · rw [Tuple.value_zeros, range_zero, sum_empty]
    · intro i hi
      omega
  | succ N ih =>
    obtain ⟨s, σ, htable, hs⟩ := ih (by omega)
    obtain ⟨s', hstep, hs'⟩ := invertStep_reaches h ht (by omega) hs
    refine ⟨s', _, ?_, hs'⟩
    simp only [inverseTable, htable, hstep]

/-- The subject that is found consists of its parts up to the order, and they are carried to the
parts of the target. -/
theorem invert_value (h : L.Acts len n order l) {target : Tuple C} (ht : target.Shaped len n) :
    ∃ g, L.invert target order = .ok g ∧ g.Shaped len n ∧
      g.value = ∑ i ∈ range (order + 1), part i g.value ∧
      ∀ i ≤ order, transport l (parts 0 g.value) i = part i target.value := by
  obtain ⟨s, σ, htable, hs⟩ := inverseTable_reaches h ht le_rfl
  have hparts : parts 0 s.subject.value = σ := by
    funext i
    rw [parts, hs.subject, part_sum (e := 0) hs.homogeneous]
    split
    · rfl
    · rename_i hi
      rw [hs.above i (by omega)]
  refine ⟨s.subject, ?_, hs.shaped, ?_, fun i hi => ?_⟩
  · simp only [invert, htable]
  · exact hs.subject.trans (sum_congr rfl fun i _ => (congrFun hparts i).symm)
  · rw [hparts, hs.transport i (by omega)]

end Inverting

section Roundtrip

variable {L : LieTriangle C} {len n order : ℕ} {l : ℕ → Module.End C (Sequence C)}

/-- The subject whose parts are carried to those of the target is the one that is found. -/
theorem invert_eq_truncate (h : L.Acts len n order l) {target f : Tuple C}
    (ht : target.Shaped len n) (hf : f.Shaped len n)
    (hparts : ∀ i ≤ order, transport l (parts 0 f.value) i = part i target.value) :
    L.invert target order = .ok (f.truncate order) := by
  obtain ⟨g, hok, hg, hsum, hreached⟩ := invert_value h ht
  have hsame := transport_injective l fun i hi => (hreached i hi).trans (hparts i hi).symm
  rw [hok]
  refine congrArg Except.ok (Tuple.value_injective hg (hf.truncate order) ?_)
  rw [hsum, Tuple.value_truncate]
  refine sum_congr rfl fun i hi => ?_
  exact hsame i (Nat.le_of_lt_succ (mem_range.1 hi))

/-- The target whose parts are those of the transported subject is the one that is reached. -/
theorem transform_eq_truncate (h : L.Acts len n order l) {subject f : Tuple C}
    (hs : subject.Shaped len n) (hf : f.Shaped len n)
    (hparts : ∀ i ≤ order, transport l (parts 0 subject.value) i = part i f.value) :
    L.transform subject order = .ok (f.truncate order) := by
  obtain ⟨g, hok, hg, hsum⟩ := transform_value h hs
  rw [hok]
  refine congrArg Except.ok (Tuple.value_injective hg (hf.truncate order) ?_)
  rw [hsum, Tuple.value_truncate]
  refine sum_congr rfl fun i hi => ?_
  exact hparts i (Nat.le_of_lt_succ (mem_range.1 hi))

theorem transform_invert (h : L.Acts len n order l) {f : Tuple C} (hf : f.Shaped len n) :
    ∃ g, L.invert f order = .ok g ∧ g.Shaped len n ∧
      L.transform g order = .ok (f.truncate order) := by
  obtain ⟨g, hok, hg, _, hreached⟩ := invert_value h hf
  exact ⟨g, hok, hg, transform_eq_truncate h hg hf hreached⟩

theorem invert_transform (h : L.Acts len n order l) {f : Tuple C} (hf : f.Shaped len n) :
    ∃ g, L.transform f order = .ok g ∧ g.Shaped len n ∧
      L.invert g order = .ok (f.truncate order) := by
  obtain ⟨g, hok, hg, _, hparts⟩ := transform_parts h hf
  exact ⟨g, hok, hg, invert_eq_truncate h hg hf fun i hi => (hparts i hi).symm⟩

end Roundtrip

end LieTriangle

end LieNormalForm

end
