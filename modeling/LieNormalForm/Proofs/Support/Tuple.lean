import LieNormalForm.Proofs.Support.Poly
import LieNormalForm.Proofs.Canonical.Tuple
import LieNormalForm.Jacobian

/-!
# Homogeneous tuples

A tuple whose terms all have one degree, with the shape that operations on it need. Sums and
multiples stay in their degree; the degrees of a directional derivative and of a bracket add up,
less one.
-/

namespace LieNormalForm

open Monomial

variable {C W : Type} [Coefficient C W]

namespace Tuple

/-- Every monomial of a component has the property that goes with the component. -/
def Supported (P : ℕ → Monomial → Prop) (f : Tuple C) : Prop :=
  ∀ k, (f.component k).Supported (P k)

instance (P : ℕ → Monomial → Prop) [∀ k m, Decidable (P k m)] (f : Tuple C) :
    Decidable (f.Supported P) :=
  decidable_of_iff (∀ k < f.size, ∀ t ∈ (f.component k).terms, P k t.1) <| by
    refine ⟨fun h k t ht => ?_, fun h k _ t ht => h k t ht⟩
    by_cases hk : k < f.size
    · exact h k hk t ht
    · rw [component_of_size_le (Nat.le_of_not_lt hk)] at ht
      cases ht

theorem supported_iff {P : ℕ → Monomial → Prop} {f : Tuple C} :
    f.Supported P ↔ ∀ k (p : Poly C), f.components[k]? = some p → p.Supported (P k) := by
  constructor
  · intro h k p hk
    have hp := h k
    rwa [component, List.getD_eq_getElem?_getD, hk] at hp
  · intro h k
    rw [component, List.getD_eq_getElem?_getD]
    cases hk : f.components[k]? with
    | none => exact .zero _
    | some p => exact h k p hk

namespace Supported

variable {P Q : ℕ → Monomial → Prop} {f g : Tuple C}

theorem imp (h : f.Supported P) (hPQ : ∀ k m, P k m → Q k m) : f.Supported Q :=
  fun k => (h k).imp (hPQ k)

theorem zeros (len n : ℕ) : (zeros len n : Tuple C).Supported P := by
  rw [supported_iff]
  intro k p hk
  rw [List.eq_of_mem_replicate (List.mem_of_getElem? hk)]
  exact .zero n

theorem map (h : f.Supported P) {op : Poly C → Poly C}
    (hop : ∀ k (p : Poly C), p.Supported (P k) → (op p).Supported (Q k)) : (f.map op).Supported Q := by
  rw [supported_iff] at h ⊢
  intro k p hk
  rw [Tuple.map, List.getElem?_map] at hk
  obtain ⟨q, hq, rfl⟩ := Option.map_eq_some_iff.1 hk
  exact hop k q (h k q hq)

theorem modify (h : f.Supported P) (k : ℕ) {op : Poly C → Poly C}
    (hop : (f.component k).Supported (P k) → (op (f.component k)).Supported (P k)) :
    (f.modify k op).Supported P := by
  have hcomponent := h k
  rw [supported_iff] at h ⊢
  intro j p hj
  rw [Tuple.modify, List.getElem?_modify] at hj
  obtain ⟨q, hq, rfl⟩ := Option.map_eq_some_iff.1 hj
  split
  · rename_i hkj
    subst hkj
    have hsame : f.component k = q := by
      rw [component, List.getD_eq_getElem?_getD, hq, Option.getD_some]
    rw [← hsame]
    exact hop hcomponent
  · exact h j q hq

theorem zipComponents {op : Poly C → Poly C → Poly C}
    (hop : ∀ k (p q : Poly C), p.Supported (P k) → q.Supported (P k) → (op p q).Supported (P k))
    (hf : f.Supported P) (hg : g.Supported P) :
    (⟨f.nvars, zipComponents op f.components g.components⟩ : Tuple C).Supported P := by
  have hlists : ∀ (ps qs : List (Poly C)) (j : ℕ),
      (∀ k (p : Poly C), ps[k]? = some p → p.Supported (P (j + k))) →
      (∀ k (q : Poly C), qs[k]? = some q → q.Supported (P (j + k))) →
      ∀ k (r : Poly C), (Tuple.zipComponents op ps qs)[k]? = some r →
        r.Supported (P (j + k)) := by
    intro ps
    induction ps with
    | nil => exact fun _ _ hp _ => hp
    | cons p ps ih =>
      intro qs j hp hq
      cases qs with
      | nil => exact hp
      | cons q qs =>
        intro k r hr
        cases k with
        | zero =>
          obtain rfl := Option.some.inj hr
          exact hop j p q (hp 0 p rfl) (hq 0 q rfl)
        | succ k =>
          have hshift : j + (k + 1) = j + 1 + k := by omega
          rw [hshift]
          refine ih qs (j + 1) (fun i p hi => ?_) (fun i q hi => ?_) k r hr
          · have h := hp (i + 1) p hi
            rwa [show j + (i + 1) = j + 1 + i by omega] at h
          · have h := hq (i + 1) q hi
            rwa [show j + (i + 1) = j + 1 + i by omega] at h
  rw [supported_iff] at hf hg ⊢
  have h := hlists f.components g.components 0
  simp only [Nat.zero_add] at h
  exact h hf hg

theorem add (hf : f.Supported P) (hg : g.Supported P) : (f + g).Supported P :=
  zipComponents (fun _ _ _ hp hq => hp.add hq) hf hg

theorem sub (hf : f.Supported P) (hg : g.Supported P) : (f - g).Supported P :=
  zipComponents (fun _ _ _ hp hq => hp.sub hq) hf hg

theorem neg (h : f.Supported P) : (-f).Supported P := h.map fun _ _ hp => hp.neg

theorem scale (h : f.Supported P) (c : C) : (f.scale c).Supported P := h.map fun _ _ hp => hp.scale c

theorem scaleWeight (h : f.Supported P) (w : W) : (f.scaleWeight w).Supported P := h.scale _

end Supported

/-- Terms that a filter drops may be added before it. -/
theorem map_filterTerms_add {keep : Monomial → Bool} {f g : Tuple C}
    (h : g.Supported fun _ m => keep m = false) :
    ((f + g).map fun p => p.filterTerms keep) = f.map fun p => p.filterTerms keep := by
  have hlists : ∀ (ps qs : List (Poly C)), (∀ q ∈ qs, q.Supported fun m => keep m = false) →
      (zipComponents Poly.add ps qs).map (fun p => p.filterTerms keep) =
        ps.map fun p => p.filterTerms keep := by
    intro ps
    induction ps with
    | nil => exact fun _ _ => rfl
    | cons p ps ih =>
      intro qs hqs
      cases qs with
      | nil => rfl
      | cons q qs =>
        obtain ⟨hq, hqs⟩ := List.forall_mem_cons.1 hqs
        exact congrArg₂ List.cons (Poly.filterTerms_add hq) (ih qs hqs)
  refine congrArg (Tuple.mk f.nvars) (hlists _ _ fun q hq => ?_)
  obtain ⟨k, hk⟩ := List.mem_iff_getElem?.1 hq
  exact supported_iff.1 h k q hk

theorem map_filterTerms_eq_self {keep : Monomial → Bool} {f : Tuple C}
    (h : f.Supported fun _ m => keep m = true) : (f.map fun p => p.filterTerms keep) = f := by
  have hkept : ∀ p ∈ f.components, p.filterTerms keep = id p := by
    intro p hp
    obtain ⟨k, hk⟩ := List.mem_iff_getElem?.1 hp
    exact Poly.filterTerms_eq_self (supported_iff.1 h k p hk)
  exact congrArg (Tuple.mk f.nvars) ((List.map_congr_left hkept).trans (List.map_id _))

theorem add_eq_self {f g : Tuple C} (h : g.Supported fun _ _ => False) : f + g = f := by
  have hall : ∀ f : Tuple C, (f.map fun p => p.filterTerms fun _ => true) = f :=
    fun f => map_filterTerms_eq_self fun _ _ _ => rfl
  rw [← hall (f + g), map_filterTerms_add (h.imp fun _ _ => False.elim), hall]

theorem map_filterTerms_map_filterTerms {keep keep' : Monomial → Bool}
    (h : ∀ m, keep m = true → keep' m = true) (f : Tuple C) :
    ((f.map fun p => p.filterTerms keep').map fun p => p.filterTerms keep) =
      f.map fun p => p.filterTerms keep := by
  have hboth : (fun m => keep m && keep' m) = keep := by
    funext m
    cases hm : keep m with
    | false => rfl
    | true => exact h m hm
  simp [map, Poly.filterTerms_filterTerms, hboth]

section Truncate

/-- The terms with degrees from `low` to `high`. -/
def band (f : Tuple C) (low high : ℕ) : Tuple C :=
  f.map fun p => p.filterTerms fun m => decide (low ≤ m.degree ∧ m.degree ≤ high)

theorem truncate_eq_band (f : Tuple C) (r : ℕ) : f.truncate r = f.band 0 r := by
  simp [band, truncate, Poly.truncate]

theorem homogeneousPart_band {d low high : ℕ} (hlow : low ≤ d) (hhigh : d ≤ high) (f : Tuple C) :
    (f.band low high).homogeneousPart d = f.homogeneousPart d :=
  map_filterTerms_map_filterTerms (fun m hm => by simp_all) f

theorem homogeneousPart_truncate {d r : ℕ} (h : d ≤ r) (f : Tuple C) :
    (f.truncate r).homogeneousPart d = f.homogeneousPart d := by
  rw [truncate_eq_band, homogeneousPart_band (Nat.zero_le d) h]

theorem size_eq_of_band {f g : Tuple C} {low high : ℕ} (h : f.band low high = g.band low high) :
    f.size = g.size := by
  simpa [band, map_size] using congrArg size h

theorem nvars_eq_of_band {f g : Tuple C} {low high : ℕ} (h : f.band low high = g.band low high) :
    f.nvars = g.nvars := by
  simpa [band, map_nvars] using congrArg nvars h

theorem size_eq_of_truncate {f g : Tuple C} {r : ℕ} (h : f.truncate r = g.truncate r) :
    f.size = g.size := by
  rw [truncate_eq_band, truncate_eq_band] at h
  exact size_eq_of_band h

theorem nvars_eq_of_truncate {f g : Tuple C} {r : ℕ} (h : f.truncate r = g.truncate r) :
    f.nvars = g.nvars := by
  rw [truncate_eq_band, truncate_eq_band] at h
  exact nvars_eq_of_band h

theorem component_truncate (f : Tuple C) (d k : ℕ) :
    (f.truncate d).component k = (f.component k).truncate d := by
  rcases Nat.lt_or_ge k f.size with hk | hk
  · exact component_map hk _
  · have hsize : (f.truncate d).size ≤ k := (map_size f _).symm ▸ hk
    rw [component_of_size_le hk, component_of_size_le hsize]
    rfl

theorem linearPart_truncate {r : ℕ} (h : 1 ≤ r) (f : Tuple C) :
    (f.truncate r).linearPart = f.linearPart := by
  rw [linearPart, linearPart, truncate, map_size, map_nvars, CoeffMatrix.ofFn, CoeffMatrix.ofFn]
  refine congrArg (CoeffMatrix.mk _ _)
    (List.map_congr_left fun i _ => List.map_congr_left fun j hj => ?_)
  have hdegree := degree_coordinate (List.mem_range.1 hj)
  rw [← truncate, component_truncate]
  exact Poly.coefficient_filterTerms (by simp [hdegree, h])

theorem minDegree?_truncate (f : Tuple C) (r : ℕ) :
    (f.truncate r).minDegree? = f.minDegree?.filter fun d => d ≤ r := by
  have hlist : ∀ ps : List (Poly C), (ps.map fun p => p.truncate r).filterMap Poly.minDegree? =
      (ps.filterMap Poly.minDegree?).filter fun d => d ≤ r := by
    intro ps
    induction ps with
    | nil => rfl
    | cons p ps ih =>
      rw [List.map_cons, List.filterMap_cons, List.filterMap_cons, Poly.minDegree?_truncate, ih]
      cases p.minDegree? with
      | none => rfl
      | some d => by_cases hd : d ≤ r <;> simp [hd, Option.filter]
  rw [minDegree?, minDegree?, ← min?_filter_le]
  exact congrArg List.min? (hlist f.components)

end Truncate

/-- A tuple of `len` functions in `n` variables, every term of degree `d`. -/
structure Graded (len n d : ℕ) (f : Tuple C) : Prop where
  size_eq : f.size = len
  nvars_eq : f.nvars = n
  supported : f.Supported fun _ => OfDegree n d

/-- A tuple of `len` functions in `n` variables, every monomial with an exponent for each. -/
structure Framed (len n : ℕ) (f : Tuple C) : Prop where
  size_eq : f.size = len
  nvars_eq : f.nvars = n
  supported : f.Supported fun _ m => m.length = n

instance (len n : ℕ) (f : Tuple C) : Decidable (f.Framed len n) :=
  decidable_of_iff (f.size = len ∧ f.nvars = n ∧ f.Supported fun _ m => m.length = n)
    ⟨fun h => ⟨h.1, h.2.1, h.2.2⟩, fun h => ⟨h.size_eq, h.nvars_eq, h.supported⟩⟩

theorem Shaped.framed {len n : ℕ} {f : Tuple C} (h : f.Shaped len n) : f.Framed len n :=
  ⟨h.size_eq, h.nvars_eq, fun k t ht => (h.component k).terms.length t ht⟩

theorem Framed.graded_homogeneousPart {len n : ℕ} {f : Tuple C} (h : f.Framed len n) (d : ℕ) :
    (f.homogeneousPart d).Graded len n d := by
  refine ⟨(map_size f _).trans h.size_eq, h.nvars_eq, h.supported.map fun k p hp => ?_⟩
  exact (hp.filterTerms _).imp fun m hm => ⟨hm.1, by simpa using hm.2⟩

theorem Shaped.graded_homogeneousPart {len n : ℕ} {f : Tuple C} (h : f.Shaped len n) (d : ℕ) :
    (f.homogeneousPart d).Graded len n d := h.framed.graded_homogeneousPart d

theorem foldl_addProduct_supported {R : Monomial → Prop} {pqs : List (Poly C × Poly C)}
    (hpqs : ∀ pq ∈ pqs, (pq.1 * pq.2).Supported R) {sum : Poly C} (hsum : sum.Supported R) :
    (pqs.foldl Jacobian.addProduct sum).Supported R := by
  induction pqs generalizing sum with
  | nil => exact hsum
  | cons pq pqs ih =>
    obtain ⟨hpq, hpqs⟩ := List.forall_mem_cons.1 hpqs
    apply ih hpqs
    unfold Jacobian.addProduct
    split
    · exact hsum
    · exact hsum.add hpq

/-- A derivative along a field has only monomials that come up when variable `j` of a monomial of
the function is exchanged for a monomial of component `j` of the field. -/
theorem Supported.directionalDerivative {P Q R : ℕ → Monomial → Prop} {f w : Tuple C}
    (hf : f.Supported P) (hw : w.Supported Q)
    (h : ∀ i j m m' k, P i m → m.lower? j = some m' → Q j k → R i (m'.product k)) :
    (f.directionalDerivative w).Supported R := by
  rw [supported_iff] at hf hw ⊢
  intro i p hi
  change ((f.components.map (Jacobian.gradient f.nvars)).map (Jacobian.contractRow w))[i]? =
    some p at hi
  rw [List.map_map, List.getElem?_map] at hi
  obtain ⟨q, hq, rfl⟩ := Option.map_eq_some_iff.1 hi
  refine foldl_addProduct_supported (fun pq hpq => ?_) (.zero _)
  obtain ⟨j, hj⟩ := List.mem_iff_getElem?.1 hpq
  obtain ⟨hrow, hcomponent⟩ := List.getElem?_zip_eq_some.1 hj
  rw [Jacobian.gradient, List.getElem?_map] at hrow
  obtain ⟨l, hl, hderivative⟩ := Option.map_eq_some_iff.1 hrow
  obtain ⟨hlt, hvalue⟩ := List.getElem?_eq_some_iff.1 hl
  obtain rfl : j = l := by simpa using hvalue
  rw [← hderivative]
  refine ((hf i q hq).derivative j (Q := fun m' => ∃ m, P i m ∧ m.lower? j = some m')
    fun m m' hm hlower => ⟨m, hm, hlower⟩).mul (hw j pq.2 hcomponent) ?_
  rintro m' k ⟨m, hm, hlower⟩ hk
  exact h i j m m' k hm hlower hk

theorem Supported.bracket {P Q R : ℕ → Monomial → Prop} {f g : Tuple C} (hf : f.Supported P)
    (hg : g.Supported Q)
    (hfg : ∀ i j m m' k, P i m → m.lower? j = some m' → Q j k → R i (m'.product k))
    (hgf : ∀ i j m m' k, Q i m → m.lower? j = some m' → P j k → R i (m'.product k)) :
    (f.bracket g).Supported R :=
  (hf.directionalDerivative hg hfg).sub (hg.directionalDerivative hf hgf)

namespace Graded

variable {len n d : ℕ} {f g w : Tuple C}

theorem zeros (len n d : ℕ) : (zeros len n : Tuple C).Graded len n d :=
  ⟨zeros_size len n, rfl, .zeros len n⟩

theorem scaleWeight (h : f.Graded len n d) (c : W) : (f.scaleWeight c).Graded len n d :=
  ⟨(scale_size f _).trans h.size_eq, h.nvars_eq, h.supported.scaleWeight c⟩

theorem neg (h : f.Graded len n d) : (-f).Graded len n d :=
  ⟨(map_size f _).trans h.size_eq, h.nvars_eq, h.supported.neg⟩

theorem add (hf : f.Graded len n d) (hg : g.Graded len n d) : (f + g).Graded len n d :=
  ⟨(add_size f g).trans hf.size_eq, hf.nvars_eq, hf.supported.add hg.supported⟩

theorem sub (hf : f.Graded len n d) (hg : g.Graded len n d) : (f - g).Graded len n d :=
  ⟨(sub_size f g).trans hf.size_eq, hf.nvars_eq, hf.supported.sub hg.supported⟩

theorem modify (h : f.Graded len n d) (k : ℕ) {op : Poly C → Poly C}
    (hop : ∀ p : Poly C, p.Supported (OfDegree n d) → (op p).Supported (OfDegree n d)) :
    (f.modify k op).Graded len n d :=
  ⟨(List.length_modify ..).trans h.size_eq, h.nvars_eq, h.supported.modify k (hop _)⟩

theorem single (len k : ℕ) {m : Monomial} (hm : m.OfDegree n d) (c : C) :
    (single len k (Poly.ofTerm m c)).Graded len n d := by
  rw [Tuple.single, Poly.ofTerm_nvars, hm.1]
  exact (zeros len n d).modify k fun _ _ => .ofTerm hm c

theorem directionalDerivative {lenw a b : ℕ} (hdegree : a + b = d + 1) (hf : f.Graded len n a)
    (hw : w.Graded lenw n b) : (f.directionalDerivative w).Graded len n d := by
  refine ⟨(directionalDerivative_size f w).trans hf.size_eq, hw.nvars_eq,
    hf.supported.directionalDerivative hw.supported fun i j m m' k hm hlower hk => ?_⟩
  have hsum := OfDegree.product ⟨(lower?_length hlower).trans hm.1, rfl⟩ hk
  refine ⟨hsum.1, ?_⟩
  have hlowered := degree_lower? hlower
  have hm := hm.2
  have hproduct := hsum.2
  omega

theorem bracket {a b : ℕ} (hdegree : a + b = d + 1) (hf : f.Graded len n a)
    (hg : g.Graded len n b) : (f.bracket g).Graded len n d :=
  (hf.directionalDerivative hdegree hg).sub
    (hg.directionalDerivative ((Nat.add_comm b a).trans hdegree) hf)

end Graded

end Tuple

end LieNormalForm
