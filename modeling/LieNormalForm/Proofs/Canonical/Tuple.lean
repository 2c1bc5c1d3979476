import LieNormalForm.Proofs.Canonical.Poly
import LieNormalForm.Graded.Series
import LieNormalForm.Tuple.Linear

/-!
# The shape of tuples

A tuple of a given length in a given number of variables, every component in canonical form.
Shapes are preserved by every operation whose arguments fit.
-/

namespace LieNormalForm

deriving instance DecidableEq for Tuple

variable {C W : Type} [Coefficient C W]

namespace Tuple

/-- A tuple of `len` canonical polynomials in `n` variables. -/
structure Shaped (len n : ℕ) (f : Tuple C) : Prop where
  size_eq : f.size = len
  nvars_eq : f.nvars = n
  canonical : ∀ p ∈ f.components, p.Canonical n

/-- Every component is a canonical polynomial in the variables of the tuple. -/
def WellFormed (f : Tuple C) : Prop := f.Shaped f.size f.nvars

instance (len n : ℕ) (f : Tuple C) : Decidable (f.Shaped len n) :=
  decidable_of_iff (f.size = len ∧ f.nvars = n ∧ ∀ p ∈ f.components, p.Canonical n)
    ⟨fun h => ⟨h.1, h.2.1, h.2.2⟩, fun h => ⟨h.size_eq, h.nvars_eq, h.canonical⟩⟩

instance (f : Tuple C) : Decidable f.WellFormed :=
  inferInstanceAs (Decidable (f.Shaped f.size f.nvars))

theorem WellFormed.shaped {f : Tuple C} {len n : ℕ} (h : f.WellFormed) (hsize : f.size = len)
    (hnvars : f.nvars = n) : f.Shaped len n := by
  subst hsize hnvars
  exact h

theorem component_modify {f : Tuple C} {k : ℕ} (hk : k < f.size) (op : Poly C → Poly C) (j : ℕ) :
    (f.modify k op).component j = if j = k then op (f.component k) else f.component j := by
  rw [component, modify, List.getD_eq_getElem?_getD, List.getElem?_modify]
  split
  · rename_i hj
    rw [if_pos hj.symm, ← hj, component, List.getD_eq_getElem?_getD, List.getElem?_eq_getElem hk]
    rfl
  · rename_i hj
    rw [if_neg (Ne.symm hj), component, List.getD_eq_getElem?_getD]
    cases f.components[j]? <;> rfl

theorem modify_modify (f : Tuple C) (k : ℕ) (op op' : Poly C → Poly C) :
    (f.modify k op).modify k op' = f.modify k (op' ∘ op) :=
  congrArg (Tuple.mk f.nvars) (List.modify_modify_eq ..)

theorem modify_eq_modify_component (f : Tuple C) (k : ℕ) (op : Poly C → Poly C) :
    f.modify k op = f.modify k fun _ => op (f.component k) := by
  refine congrArg (Tuple.mk f.nvars) (List.ext_getElem? fun j => ?_)
  rw [List.getElem?_modify, List.getElem?_modify]
  split
  · rename_i hj
    subst hj
    rw [component, List.getD_eq_getElem?_getD]
    cases f.components[k]? <;> rfl
  · rfl

theorem modify_component_self (f : Tuple C) (k : ℕ) :
    (f.modify k fun _ => f.component k) = f :=
  (modify_eq_modify_component f k id).symm.trans (congrArg (Tuple.mk f.nvars) (List.modify_id ..))

theorem component_of_lt {f : Tuple C} {k : ℕ} (hk : k < f.components.length) :
    f.component k = f.components[k] := by
  rw [component, List.getD_eq_getElem?_getD, List.getElem?_eq_getElem hk, Option.getD_some]

theorem component_of_size_le {f : Tuple C} {k : ℕ} (hk : f.size ≤ k) :
    f.component k = Poly.zero f.nvars := by
  rw [component, List.getD_eq_getElem?_getD, List.getElem?_eq_none hk, Option.getD_none]

theorem ext_component {f g : Tuple C} (hsize : f.size = g.size) (hnvars : f.nvars = g.nvars)
    (h : ∀ k < f.size, f.component k = g.component k) : f = g := by
  have hcomponents : f.components = g.components := by
    refine List.ext_getElem hsize fun k hf hg => ?_
    rw [← component_of_lt hf, ← component_of_lt hg, h k hf]
  exact congrArg₂ Tuple.mk hnvars hcomponents

theorem component_zeros (len n k : ℕ) : (zeros len n : Tuple C).component k = Poly.zero n := by
  rw [component, zeros, List.getD_eq_getElem?_getD, List.getElem?_replicate]
  split <;> rfl

theorem component_map {f : Tuple C} {k : ℕ} (hk : k < f.size) (op : Poly C → Poly C) :
    (f.map op).component k = op (f.component k) := by
  have hmap : k < (f.map op).size := (map_size f op).symm ▸ hk
  rw [component_of_lt hk, component_of_lt hmap]
  exact List.getElem_map op

theorem seeds_getElem? [Weight W] {f w : Tuple C} {offset count j : ℕ}
    (h : (f.seeds offset count)[j]? = some w) : w = f.seed offset j := by
  rw [seeds, List.getElem?_map, Option.map_eq_some_iff] at h
  obtain ⟨i, hi, rfl⟩ := h
  obtain ⟨_, hi⟩ := List.getElem?_eq_some_iff.1 hi
  rw [← hi, List.getElem_range]

theorem getElem?_zipComponents (op : Poly C → Poly C → Poly C) {ps qs : List (Poly C)} {k : ℕ}
    {p q : Poly C} (hp : ps[k]? = some p) (hq : qs[k]? = some q) :
    (zipComponents op ps qs)[k]? = some (op p q) := by
  induction ps generalizing qs k with
  | nil => cases hp
  | cons p ps ih =>
    cases qs with
    | nil => cases hq
    | cons q qs =>
      cases k with
      | zero =>
        cases hp
        cases hq
        rfl
      | succ k => exact ih hp hq

theorem component_sub {f g : Tuple C} {k : ℕ} (hsize : g.size = f.size) (hk : k < f.size) :
    (f - g).component k = f.component k - g.component k := by
  have hg : k < g.size := hsize ▸ hk
  have hzip := getElem?_zipComponents Poly.sub (List.getElem?_eq_getElem hk)
    (List.getElem?_eq_getElem hg)
  rw [component_of_lt hk, component_of_lt hg, component, List.getD_eq_getElem?_getD]
  exact congrArg (Option.getD · _) hzip

theorem zipComponents_forall {P Q : Poly C → Prop} {op : Poly C → Poly C → Poly C}
    (hop : ∀ p q, P p → Q q → P (op p q)) {ps qs : List (Poly C)} (hp : ∀ p ∈ ps, P p)
    (hq : ∀ q ∈ qs, Q q) : ∀ r ∈ zipComponents op ps qs, P r := by
  induction ps generalizing qs with
  | nil => exact hp
  | cons p ps ih =>
    cases qs with
    | nil => exact hp
    | cons q qs =>
      obtain ⟨hp, hps⟩ := List.forall_mem_cons.1 hp
      obtain ⟨hq, hqs⟩ := List.forall_mem_cons.1 hq
      exact List.forall_mem_cons.2 ⟨hop p q hp hq, ih hps hqs⟩

theorem exists_mapM_eq_ok {A B : Type} {P : A → B → Prop} {f : A → Except Error B} {xs : List A}
    (h : ∀ x ∈ xs, ∃ y, f x = .ok y ∧ P x y) :
    ∃ ys, xs.mapM f = .ok ys ∧ List.Forall₂ P xs ys := by
  induction xs with
  | nil => exact ⟨[], rfl, .nil⟩
  | cons x xs ih =>
    obtain ⟨hx, hxs⟩ := List.forall_mem_cons.1 h
    obtain ⟨y, hy, hP⟩ := hx
    obtain ⟨ys, hys, hPs⟩ := ih hxs
    refine ⟨y :: ys, ?_, .cons hP hPs⟩
    rw [List.mapM_cons, hy, hys]
    rfl

namespace Shaped

variable {len n : ℕ} {f g w : Tuple C}

theorem length_eq (h : f.Shaped len n) : f.components.length = len := h.size_eq

theorem wellFormed (h : f.Shaped len n) : f.WellFormed := by
  unfold WellFormed
  rwa [h.size_eq, h.nvars_eq]

theorem component (h : f.Shaped len n) (k : ℕ) : (f.component k).Canonical n := by
  rw [Tuple.component, List.getD_eq_getElem?_getD]
  cases hk : f.components[k]? with
  | none =>
    rw [h.nvars_eq]
    exact .zero n
  | some p => exact h.canonical p (List.mem_of_getElem? hk)

theorem of_component (hsize : f.size = len) (hnvars : f.nvars = n)
    (h : ∀ k < len, (f.component k).Canonical n) : f.Shaped len n := by
  refine ⟨hsize, hnvars, fun p hp => ?_⟩
  obtain ⟨k, hk, rfl⟩ := List.mem_iff_getElem.1 hp
  have hcomponent := h k (hsize ▸ hk)
  rwa [component_of_lt hk] at hcomponent

theorem map (h : f.Shaped len n) {op : Poly C → Poly C}
    (hop : ∀ p : Poly C, p.Canonical n → (op p).Canonical n) : (f.map op).Shaped len n := by
  refine ⟨(map_size f op).trans h.size_eq, h.nvars_eq, fun p hp => ?_⟩
  obtain ⟨q, hq, rfl⟩ := List.mem_map.1 hp
  exact hop q (h.canonical q hq)

theorem zeros (len n : ℕ) : (zeros len n : Tuple C).Shaped len n := by
  refine ⟨zeros_size len n, rfl, fun p hp => ?_⟩
  rw [List.eq_of_mem_replicate hp]
  exact .zero n

theorem identity (n : ℕ) : (identity n : Tuple C).Shaped n n := by
  refine ⟨identity_size n, rfl, fun p hp => ?_⟩
  obtain ⟨k, _, rfl⟩ := List.mem_map.1 hp
  exact .coordinate n k

theorem modify (h : f.Shaped len n) (k : ℕ) {op : Poly C → Poly C}
    (hop : ∀ p : Poly C, p.Canonical n → (op p).Canonical n) : (f.modify k op).Shaped len n := by
  refine ⟨(List.length_modify ..).trans h.size_eq, h.nvars_eq, fun p hp => ?_⟩
  obtain ⟨j, hj⟩ := List.mem_iff_getElem?.1 hp
  rw [Tuple.modify, List.getElem?_modify] at hj
  obtain ⟨q, hq, rfl⟩ := Option.map_eq_some_iff.1 hj
  have hcanonical := h.canonical q (List.mem_of_getElem? hq)
  split
  · exact hop q hcanonical
  · exact hcanonical

theorem single (len k : ℕ) {p : Poly C} (hp : p.Canonical n) : (single len k p).Shaped len n := by
  unfold Tuple.single
  rw [hp.nvars_eq]
  exact (zeros len n).modify k fun _ _ => hp

theorem scale (h : f.Shaped len n) (c : C) : (f.scale c).Shaped len n :=
  h.map fun _ hp => hp.scale c

theorem scaleWeight (h : f.Shaped len n) (w : W) : (f.scaleWeight w).Shaped len n := h.scale _

theorem homogeneousPart (h : f.Shaped len n) (d : ℕ) : (f.homogeneousPart d).Shaped len n :=
  h.map fun _ hp => hp.filterTerms _

theorem truncate (h : f.Shaped len n) (d : ℕ) : (f.truncate d).Shaped len n :=
  h.map fun _ hp => hp.filterTerms _

theorem add (hf : f.Shaped len n) (hg : g.Shaped len n) : (f + g).Shaped len n :=
  ⟨(add_size f g).trans hf.size_eq, hf.nvars_eq,
    zipComponents_forall (fun _ _ hp hq => hp.add hq) hf.canonical hg.canonical⟩

theorem diagonalEigenvalues_length (h : f.Shaped n n) : f.diagonalEigenvalues.length = n := by
  rw [Tuple.diagonalEigenvalues_length, h.size_eq, h.nvars_eq, Nat.min_self]

theorem seed [Weight W] (h : f.Shaped len n) (offset m : ℕ) : (f.seed offset m).Shaped len n :=
  (h.homogeneousPart _).scaleWeight _

theorem weightedSumFrom [Weight W] {i : ℕ} {fs : List (Tuple C)} (hf : f.Shaped len n)
    (hfs : ∀ g ∈ fs, g.Shaped len n) : (weightedSumFrom i f fs).Shaped len n := by
  induction fs generalizing i f with
  | nil => exact hf
  | cons g fs ih =>
    obtain ⟨hg, hfs⟩ := List.forall_mem_cons.1 hfs
    exact ih (hf.add (hg.scaleWeight _)) hfs

theorem weightedSum [Weight W] {like : Tuple C} {fs : List (Tuple C)} (hlike : like.Shaped len n)
    (hfs : ∀ g ∈ fs, g.Shaped len n) : (weightedSum like fs).Shaped len n := by
  unfold Tuple.weightedSum
  rw [hlike.size_eq, hlike.nvars_eq]
  exact (zeros len n).weightedSumFrom hfs

theorem contractRow (hw : w.Shaped len n) {row : List (Poly C)} (hrow : ∀ p ∈ row, p.Canonical n) :
    (Jacobian.contractRow w row).Canonical n := by
  unfold Jacobian.contractRow
  have hzip : ∀ pq ∈ List.zip row w.components, pq.1.Canonical n ∧ pq.2.Canonical n :=
    fun pq hpq => ⟨hrow _ (List.of_mem_zip hpq).1, hw.canonical _ (List.of_mem_zip hpq).2⟩
  have hfold : ∀ (pqs : List (Poly C × Poly C)) (sum : Poly C), sum.Canonical n →
      (∀ pq ∈ pqs, pq.1.Canonical n ∧ pq.2.Canonical n) →
      (pqs.foldl Jacobian.addProduct sum).Canonical n := by
    intro pqs
    induction pqs with
    | nil => exact fun _ hsum _ => hsum
    | cons pq pqs ih =>
      intro sum hsum hpqs
      obtain ⟨hpq, hpqs⟩ := List.forall_mem_cons.1 hpqs
      refine ih _ ?_ hpqs
      unfold Jacobian.addProduct
      split
      · exact hsum
      · exact hsum.add (hpq.1.mul hpq.2)
  refine hfold _ _ ?_ hzip
  rw [hw.nvars_eq]
  exact .zero n

theorem directionalDerivative {lenw : ℕ} (hf : f.Shaped len n) (hw : w.Shaped lenw n) :
    (f.directionalDerivative w).Shaped len n := by
  refine ⟨(directionalDerivative_size f w).trans hf.size_eq, hw.nvars_eq, fun p hp => ?_⟩
  obtain ⟨row, hrow, rfl⟩ := List.mem_map.1 hp
  obtain ⟨q, hq, rfl⟩ := List.mem_map.1 hrow
  refine hw.contractRow fun r hr => ?_
  obtain ⟨j, _, rfl⟩ := List.mem_map.1 hr
  exact (hf.canonical q hq).derivative j

theorem sub (hf : f.Shaped len n) (hg : g.Shaped len n) : (f - g).Shaped len n :=
  ⟨(sub_size f g).trans hf.size_eq, hf.nvars_eq,
    zipComponents_forall (fun _ _ hp hq => hp.sub hq) hf.canonical hg.canonical⟩

theorem bracket (hf : f.Shaped len n) (hg : g.Shaped len n) : (f.bracket g).Shaped len n :=
  (hf.directionalDerivative hg).sub (hg.directionalDerivative hf)

theorem neg [Poly.NegatesZero C] (h : f.Shaped len n) : (-f).Shaped len n :=
  h.map fun _ hp => hp.neg

end Shaped

end Tuple

end LieNormalForm
