import LieNormalForm.Proofs.Homological.Budget
import LieNormalForm.Proofs.Homological.Pivot
import LieNormalForm.Proofs.Homological.Semisimple
import LieNormalForm.Homological.Equation

/-!
# The order in which terms are sorted

Different monomials go to different places of a half, so the halves of a component do not depend
on the order in which its terms are sorted. A sweep sorts by weight, and as long as no bracket
reaches beyond the term that it eliminates, this is all that tells it from sorting in the order of
the monomials: both solvers give the same split, without any law of arithmetic.
-/

namespace LieNormalForm

variable {C W : Type} [Coefficient C W]

namespace Split

variable {eigenvalues : List C} {test : ZeroTest C} {n k : ℕ}

section Sorting

/-- Puts a term where its divisor sends it. -/
def Halves.place (s : Halves C) (t : Term C) : Resonance C → Halves C
  | .resonant => ⟨s.remainder.addTerm t.1 t.2, s.generator⟩
  | .eliminable d => ⟨s.remainder, s.generator.addTerm t.1 (t.2 / d)⟩

variable {s s' : Halves C} {t u : Term C} {ts us : List (Term C)}

theorem sortTerm_eq : sortTerm eigenvalues test k s t =
    (classify k t.1 eigenvalues test).map (s.place t) := by
  unfold sortTerm
  split <;> rename_i h <;> rw [h] <;> rfl

theorem Halves.place_comm (hs : s.Sound n k eigenvalues test) (hne : t.1 ≠ u.1)
    (r r' : Resonance C) : (s.place t r).place u r' = (s.place u r').place t r := by
  cases r with
  | resonant =>
    cases r' with
    | resonant => simp only [place, hs.remainder.addTerm_comm hne]
    | eliminable d => rfl
  | eliminable d =>
    cases r' with
    | resonant => rfl
    | eliminable d' => simp only [place, hs.generator.addTerm_comm hne]

theorem sortTerms_perm (h : us.Perm ts) (hnodup : (us.map Prod.fst).Nodup)
    (hlength : ∀ t ∈ us, t.1.length = n) (hs : s.Sound n k eigenvalues test)
    (hok : sortTerms eigenvalues test k s us = .ok s') :
    sortTerms eigenvalues test k s ts = .ok s' := by
  induction h generalizing s with
  | nil => exact hok
  | cons t _ ih =>
    obtain ⟨ht, hrest⟩ := List.forall_mem_cons.1 hlength
    simp only [sortTerms] at hok ⊢
    split at hok
    · cases hok
    · rename_i s₁ hterm
      exact ih (List.nodup_cons.1 hnodup).2 hrest (sortTerm_sound ht hterm hs) hok
  | swap t u ts =>
    have hne : u.1 ≠ t.1 := by
      intro heq
      simp [heq] at hnodup
    simp only [sortTerms, sortTerm_eq] at hok ⊢
    cases hu : classify k u.1 eigenvalues test with
    | error e => simp [hu, Except.map] at hok
    | ok r =>
      cases ht : classify k t.1 eigenvalues test with
      | error e => simp [hu, ht, Except.map] at hok
      | ok r' =>
        simp only [hu, ht, Except.map, Halves.place_comm hs hne] at hok ⊢
        exact hok
  | trans h₁ _ ih₁ ih₂ =>
    refine ih₂ ?_ (fun t ht => hlength t (h₁.mem_iff.2 ht)) hs (ih₁ hnodup hlength hs hok)
    exact (h₁.map Prod.fst).nodup_iff.1 hnodup

theorem sortTerms_classified (h : sortTerms eigenvalues test k s ts = .ok s') :
    ∀ t ∈ ts, ∃ r, classify k t.1 eigenvalues test = .ok r := by
  induction ts generalizing s with
  | nil => simp
  | cons t ts ih =>
    simp only [sortTerms, sortTerm_eq] at h
    cases hr : classify k t.1 eigenvalues test with
    | error e => simp [hr, Except.map] at h
    | ok r =>
      simp only [hr, Except.map] at h
      exact List.forall_mem_cons.2 ⟨⟨r, hr⟩, ih h⟩

theorem exists_of_sortTerms_error {e : Error}
    (h : sortTerms eigenvalues test k s ts = .error e) :
    ∃ t ∈ ts, classify k t.1 eigenvalues test = .error e := by
  induction ts generalizing s with
  | nil => cases h
  | cons t ts ih =>
    simp only [sortTerms, sortTerm_eq] at h
    cases hr : classify k t.1 eigenvalues test with
    | error e' =>
      simp only [hr, Except.map] at h
      cases h
      exact ⟨t, List.mem_cons_self .., hr⟩
    | ok r =>
      simp only [hr, Except.map] at h
      obtain ⟨u, hu, hclass⟩ := ih h
      exact ⟨u, List.mem_cons_of_mem _ hu, hclass⟩

theorem sortTerms_resonant (h : ∀ t ∈ ts, classify k t.1 eigenvalues test = .ok .resonant) :
    sortTerms eigenvalues test k s ts =
      .ok ⟨ts.foldl (fun p t => p.addTerm t.1 t.2) s.remainder, s.generator⟩ := by
  induction ts generalizing s with
  | nil => rfl
  | cons t ts ih =>
    obtain ⟨ht, hts⟩ := List.forall_mem_cons.1 h
    simp only [sortTerms, sortTerm_eq, ht, Except.map, ih hts, Halves.place, List.foldl_cons]

end Sorting

section Sweep

namespace Sweep

/-- What has been found for a component so far. -/
def halves (s : Sweep C) (k : ℕ) : Halves C := ⟨s.remainder.component k, s.generator.component k⟩

/-- Gives component `k` a new residual and new halves. -/
def settle (s : Sweep C) (k : ℕ) (p : Poly C) (h : Halves C) : Sweep C :=
  ⟨s.residual.modify k fun _ => p, s.remainder.modify k fun _ => h.remainder,
    s.generator.modify k fun _ => h.generator⟩

/-- All tuples of a sweep have `n` components. -/
structure Sized (n : ℕ) (s : Sweep C) : Prop where
  residual : s.residual.size = n
  remainder : s.remainder.size = n
  generator : s.generator.size = n

variable {linear : Tuple C} {s s' : Sweep C} {t : Term C} {p q : Poly C} {h h' : Halves C}

theorem Sized.settle (hs : s.Sized n) (k : ℕ) (p : Poly C) (h : Halves C) :
    (s.settle k p h).Sized n :=
  ⟨(List.length_modify ..).trans hs.residual, (List.length_modify ..).trans hs.remainder,
    (List.length_modify ..).trans hs.generator⟩

theorem settle_self (s : Sweep C) (k : ℕ) :
    s.settle k (s.residual.component k) (s.halves k) = s := by
  simp only [settle, halves, Tuple.modify_component_self]

theorem settle_settle : (s.settle k p h).settle k q h' = s.settle k q h' := by
  simp only [settle, Tuple.modify_modify, Function.comp_def]

theorem halves_settle (hs : s.Sized n) (hk : k < n) : (s.settle k p h).halves k = h := by
  simp only [settle, halves, Tuple.component_modify (hs.remainder ▸ hk),
    Tuple.component_modify (hs.generator ▸ hk), if_true]

theorem residual_settle (hs : s.Sized n) (hk : k < n) :
    (s.settle k p h).residual.component k = p := by
  simp only [settle, Tuple.component_modify (hs.residual ▸ hk), if_true]

theorem residual_settle_of_ne (hs : s.Sized n) (hk : k < n) {j : ℕ} (hj : j ≠ k) :
    (s.settle k p h).residual.component j = s.residual.component j := by
  simp only [settle, Tuple.component_modify (hs.residual ▸ hk), if_neg hj]

theorem halves_settle_of_ne (hs : s.Sized n) (hk : k < n) {j : ℕ} (hj : j ≠ k) :
    (s.settle k p h).halves j = s.halves j := by
  simp only [settle, halves, Tuple.component_modify (hs.remainder ▸ hk),
    Tuple.component_modify (hs.generator ▸ hk), if_neg hj]

theorem keep_eq_settle : s.keep k t =
    s.settle k ((s.residual.component k).removeTerm t.1) ((s.halves k).place t .resonant) := by
  simp only [keep, settle, halves, Halves.place, Tuple.modify_component_self]
  rw [Tuple.modify_eq_modify_component, Tuple.modify_eq_modify_component s.remainder]

/-- A bracket with a term of component `k` has no other terms. -/
def Isolates (linear : Tuple C) (n k : ℕ) (m : Monomial) : Prop :=
  ∀ c, (linear.bracket (.single n k (.ofTerm m c))).Supported fun i m' => i = k ∧ m' = m

theorem eliminate_eq_settle (hs : s.Sized n) (hk : k < n) (hA : linear.size = n)
    (ht : Isolates linear n k t.1) (d : C) : eliminate linear s k t.1 (t.2 / d) =
    s.settle k ((s.residual.component k).removeTerm t.1) ((s.halves k).place t (.eliminable d)) := by
  have hbracket : ∀ g : Tuple C, (linear.bracket g).size = n := by
    intro g
    rw [Tuple.bracket, Tuple.sub_size, Tuple.directionalDerivative_size, hA]
  simp only [eliminate, settle, halves, Halves.place, Tuple.modify_component_self, hs.residual]
  rw [Tuple.modify_removeTerm_sub ((hbracket _).trans hs.residual.symm) (hs.residual ▸ hk) (ht _),
    Tuple.modify_eq_modify_component, Tuple.modify_eq_modify_component s.generator]

/-- Handling a term that meets no others in its bracket sorts it. -/
theorem handle_eq_sortTerm (hs : s.Sized n) (hk : k < n) (hA : linear.size = n)
    (ht : classify k t.1 eigenvalues test = .ok .resonant ∨ Isolates linear n k t.1) :
    handle linear eigenvalues test s k t = (sortTerm eigenvalues test k (s.halves k) t).map
      (s.settle k ((s.residual.component k).removeTerm t.1)) := by
  rw [sortTerm_eq]
  unfold handle
  split
  · rename_i hclass
    rw [hclass]
    rfl
  · rename_i hclass
    rw [hclass]
    exact congrArg Except.ok keep_eq_settle
  · rename_i d hclass
    rw [hclass] at ht ⊢
    have ht := ht.resolve_left fun h => by cases h
    exact congrArg Except.ok (eliminate_eq_settle hs hk hA ht d)

theorem settle_zero (hnil : (s.residual.component k).terms = []) :
    s.settle k (.zero (s.residual.component k).nvars) (s.halves k) = s := by
  have hzero : Poly.zero (s.residual.component k).nvars = s.residual.component k :=
    congrArg (Poly.mk _) hnil.symm
  rw [hzero, settle_self]

/-- The sweep of a component sorts its terms in some order. -/
theorem component_eq_sortTerms (hs : s.Sized n) (hk : k < n) (hA : linear.size = n)
    (hsorted : Sorted (s.residual.component k).terms)
    (hterms : ∀ t ∈ (s.residual.component k).terms,
      classify k t.1 eigenvalues test = .ok .resonant ∨ Isolates linear n k t.1)
    {budget : ℕ} (hbudget : (s.residual.component k).terms.length ≤ budget) :
    ∃ us, us.Perm (s.residual.component k).terms ∧
      component linear eigenvalues test k budget s =
        (sortTerms eigenvalues test k (s.halves k) us).map
          (s.settle k (.zero (s.residual.component k).nvars)) := by
  induction budget generalizing s with
  | zero =>
    have hnil := List.eq_nil_of_length_eq_zero (Nat.le_zero.1 hbudget)
    refine ⟨[], by rw [hnil], ?_⟩
    have hzero : (s.residual.component k).isZero = true := by simp [Poly.isZero, hnil]
    simp only [component, hzero, if_true]
    exact congrArg Except.ok (settle_zero hnil).symm
  | succ budget ih =>
    simp only [component]
    split
    · rename_i hnone
      have hnil := List.isEmpty_iff.1 ((Poly.lightest?_eq_none_iff _).1 hnone)
      exact ⟨[], by rw [hnil], congrArg Except.ok (settle_zero hnil).symm⟩
    · rename_i t hlightest
      have ht := Poly.lightest?_mem hlightest
      have hperm := hsorted.perm_cons_filter ht
      rw [handle_eq_sortTerm hs hk hA (hterms t ht)]
      cases hterm : sortTerm eigenvalues test k (s.halves k) t with
      | error e =>
        refine ⟨_, hperm.symm, ?_⟩
        simp only [sortTerms, hterm, Except.map]
      | ok h =>
        have hrest := residual_settle (p := (s.residual.component k).removeTerm t.1) (h := h) hs hk
        have hkept := hsorted.filter fun u => !(u.1 == t.1)
        have hlength : ((s.residual.component k).removeTerm t.1).terms.length ≤ budget :=
          Nat.le_of_succ_le_succ (Nat.le_trans (Nat.le_of_eq hperm.length_eq.symm) hbudget)
        obtain ⟨us, hus, hcomponent⟩ := ih (hs.settle k _ h) (by rwa [hrest])
          (fun u hu => hterms u (List.mem_of_mem_filter (hrest ▸ hu))) (by rwa [hrest])
        rw [hrest] at hus hcomponent
        refine ⟨t :: us, (hus.cons t).trans hperm.symm, ?_⟩
        simp only [Except.map, hcomponent, halves_settle hs hk, sortTerms, hterm]
        cases sortTerms eigenvalues test k h us with
        | error e => rfl
        | ok h' => exact congrArg Except.ok settle_settle

end Sweep

end Sweep

section Solvers

/-- Every component of the right side is sorted into its halves. -/
structure Sorts (eigenvalues : List C) (test : ZeroTest C) (n : ℕ) (forcing : Tuple C)
    (s : Split C) : Prop where
  remainder_size : s.remainder.size = n
  generator_size : s.generator.size = n
  remainder_nvars : s.remainder.nvars = n
  generator_nvars : s.generator.nvars = n
  sorted : ∀ k < n, sortTerms eigenvalues test k ⟨.zero n, .zero n⟩ (forcing.component k).terms =
    .ok ⟨s.remainder.component k, s.generator.component k⟩

/-- A term of the right side is refused when its divisor is looked up. -/
def Refuses (eigenvalues : List C) (test : ZeroTest C) (n : ℕ) (forcing : Tuple C) (e : Error) :
    Prop :=
  ∃ k < n, ∃ t ∈ (forcing.component k).terms, classify k t.1 eigenvalues test = .error e

/-- A split sorts the right side, an error is about one of its terms. -/
def Sorting (eigenvalues : List C) (test : ZeroTest C) (n : ℕ) (forcing : Tuple C) :
    Except Error (Split C) → Prop
  | .ok s => Sorts eigenvalues test n forcing s
  | .error e => Refuses eigenvalues test n forcing e

variable {linear forcing : Tuple C} {s s' : Split C}

theorem Sorts.unique (h : Sorts eigenvalues test n forcing s)
    (h' : Sorts eigenvalues test n forcing s') : s = s' := by
  have hsame : ∀ k < n, s.remainder.component k = s'.remainder.component k ∧
      s.generator.component k = s'.generator.component k := by
    intro k hk
    have hhalves := (h.sorted k hk).symm.trans (h'.sorted k hk)
    simpa using hhalves
  have hremainder : s.remainder = s'.remainder := by
    refine Tuple.ext_component (h.remainder_size.trans h'.remainder_size.symm)
      (h.remainder_nvars.trans h'.remainder_nvars.symm) fun k hk => ?_
    exact (hsame k (h.remainder_size ▸ hk)).1
  have hgenerator : s.generator = s'.generator := by
    refine Tuple.ext_component (h.generator_size.trans h'.generator_size.symm)
      (h.generator_nvars.trans h'.generator_nvars.symm) fun k hk => ?_
    exact (hsame k (h.generator_size ▸ hk)).2
  exact congrArg₂ Split.mk hremainder hgenerator

theorem Sorts.not_refuses (h : Sorts eigenvalues test n forcing s) {e : Error} :
    ¬Refuses eigenvalues test n forcing e := by
  rintro ⟨k, hk, t, ht, hclass⟩
  obtain ⟨r, hr⟩ := sortTerms_classified (h.sorted k hk) t ht
  rw [hclass] at hr
  cases hr

theorem checkInput_eq_ok (hsize : forcing.size = n) (hnvars : forcing.nvars = n)
    (hA : linear.size = n) (hA' : linear.nvars = n) (hlength : eigenvalues.length = n) :
    checkInput linear eigenvalues forcing = .ok () := by
  simp [checkInput, requireSizes, hsize, hnvars, hA, hA', hlength]

theorem sortComponents_error {k : ℕ} {ps : List (Poly C)} {e : Error}
    (h : sortComponents n eigenvalues test k ps = .error e) :
    ∃ i p, ps[i]? = some p ∧ ∃ t ∈ p.terms, classify (k + i) t.1 eigenvalues test = .error e := by
  induction ps generalizing k with
  | nil => cases h
  | cons p ps ih =>
    simp only [sortComponents] at h
    split at h
    · rename_i e' hsort
      cases h
      exact ⟨0, p, rfl, exists_of_sortTerms_error hsort⟩
    · split at h
      · rename_i e' hrest
        cases h
        obtain ⟨i, q, hq, hrefused⟩ := ih hrest
        refine ⟨i + 1, q, hq, ?_⟩
        rwa [← Nat.add_assoc, Nat.add_right_comm]
      · cases h

theorem semisimple_sorting (test : ZeroTest C) (hsize : forcing.size = n)
    (hnvars : forcing.nvars = n) (hcheck : checkInput linear eigenvalues forcing = .ok ()) :
    Sorting eigenvalues test n forcing (semisimple linear eigenvalues forcing test) := by
  simp only [semisimple, hcheck, hnvars]
  cases hhalves : sortComponents n eigenvalues test 0 forcing.components with
  | error e =>
    obtain ⟨k, p, hp, hrefused⟩ := sortComponents_error hhalves
    have hk : k < forcing.size := (List.getElem?_eq_some_iff.1 hp).1
    refine ⟨k, hsize ▸ hk, ?_⟩
    rw [Nat.zero_add] at hrefused
    rwa [Tuple.component, List.getD_eq_getElem?_getD, hp]
  | ok halves =>
    have hlength : halves.length = n := (sortComponents_length hhalves).trans hsize
    refine ⟨(List.length_map ..).trans hlength, (List.length_map ..).trans hlength, rfl, rfl,
      fun k hk => ?_⟩
    have hget := List.getElem?_eq_getElem (l := halves) (hlength ▸ hk)
    obtain ⟨p, hp, hsort⟩ := sortComponents_getElem? hhalves hget
    rw [Nat.zero_add] at hsort
    rw [component_of_halves halves Halves.remainder rfl,
      component_of_halves halves Halves.generator rfl, List.getD_eq_getElem?_getD, hget,
      Tuple.component, List.getD_eq_getElem?_getD, hp]
    exact hsort

namespace Sweep

/-- The components from `count` on are sorted, the others as they were. -/
structure Swept (eigenvalues : List C) (test : ZeroTest C) (n : ℕ) (forcing : Tuple C) (count : ℕ)
    (s : Sweep C) : Prop where
  sized : s.Sized n
  remainder_nvars : s.remainder.nvars = n
  generator_nvars : s.generator.nvars = n
  residual : ∀ k < count, s.residual.component k = forcing.component k
  fresh : ∀ k < count, s.halves k = ⟨.zero n, .zero n⟩
  sorted : ∀ k, count ≤ k → k < n →
    sortTerms eigenvalues test k ⟨.zero n, .zero n⟩ (forcing.component k).terms = .ok (s.halves k)

theorem start_swept (hF : forcing.Shaped n n) :
    (start forcing).Swept eigenvalues test n forcing n := by
  refine ⟨⟨hF.size_eq, (Tuple.zeros_size ..).trans hF.size_eq,
    (Tuple.zeros_size ..).trans hF.size_eq⟩, hF.nvars_eq, hF.nvars_eq, fun _ _ => rfl,
    fun k _ => ?_, fun k hk hk' => absurd hk' (by omega)⟩
  simp only [start, halves, Tuple.component_zeros, hF.nvars_eq]

variable {count : ℕ} {s : Sweep C}

theorem Swept.settle (hs : s.Swept eigenvalues test n forcing (k + 1)) (hk : k < n)
    {h : Halves C} (hsort : sortTerms eigenvalues test k ⟨.zero n, .zero n⟩
      (forcing.component k).terms = .ok h) (p : Poly C) :
    (s.settle k p h).Swept eigenvalues test n forcing k := by
  refine ⟨hs.sized.settle k p h, hs.remainder_nvars, hs.generator_nvars, fun j hj => ?_,
    fun j hj => ?_, fun j hj hjn => ?_⟩
  · rw [residual_settle_of_ne hs.sized hk (by omega), hs.residual j (by omega)]
  · rw [halves_settle_of_ne hs.sized hk (by omega), hs.fresh j (by omega)]
  · rcases Nat.eq_or_lt_of_le hj with rfl | hlt
    · rw [hsort, halves_settle hs.sized hk]
    · rw [halves_settle_of_ne hs.sized hk (by omega), hs.sorted j hlt hjn]

variable (hF : forcing.Shaped n n) (hA : linear.size = n)
  (hterms : ∀ k < n, ∀ t ∈ (forcing.component k).terms,
    classify k t.1 eigenvalues test = .ok .resonant ∨ Isolates linear n k t.1)
  {budget : ℕ} (hbudget : ∀ k < n, (forcing.component k).terms.length ≤ budget)
include hF hA hterms hbudget

theorem component_swept (hs : s.Swept eigenvalues test n forcing (k + 1)) (hk : k < n) :
    (∃ s', component linear eigenvalues test k budget s = .ok s' ∧
      s'.Swept eigenvalues test n forcing k) ∨
    ∃ e, component linear eigenvalues test k budget s = .error e ∧
      Refuses eigenvalues test n forcing e := by
  have hresidual := hs.residual k k.lt_succ_self
  have hcanonical := (hF.component k).terms
  obtain ⟨us, hperm, hcomponent⟩ := component_eq_sortTerms hs.sized hk hA
    (hresidual ▸ hcanonical.sorted) (hresidual ▸ hterms k hk) (hresidual ▸ hbudget k hk)
  rw [hresidual] at hperm
  rw [hs.fresh k k.lt_succ_self] at hcomponent
  rw [hcomponent]
  cases hsort : sortTerms eigenvalues test k ⟨.zero n, .zero n⟩ us with
  | error e =>
    obtain ⟨t, ht, hclass⟩ := exists_of_sortTerms_error hsort
    exact .inr ⟨e, rfl, k, hk, t, hperm.mem_iff.1 ht, hclass⟩
  | ok h =>
    have hnodup := (hperm.map Prod.fst).nodup_iff.2 hcanonical.sorted.nodup_monomials
    have hlength : ∀ t ∈ us, t.1.length = n := fun t ht => hcanonical.length t (hperm.mem_iff.1 ht)
    have hsort := sortTerms_perm hperm hnodup hlength (.zero n k eigenvalues test) hsort
    exact .inl ⟨_, rfl, hs.settle hk hsort _⟩

theorem components_swept (hs : s.Swept eigenvalues test n forcing count) (hcount : count ≤ n) :
    (∃ s', components linear eigenvalues test budget count s = .ok s' ∧
      s'.Swept eigenvalues test n forcing 0) ∨
    ∃ e, components linear eigenvalues test budget count s = .error e ∧
      Refuses eigenvalues test n forcing e := by
  induction count generalizing s with
  | zero => exact .inl ⟨s, rfl, hs⟩
  | succ k ih =>
    simp only [components]
    rcases component_swept hF hA hterms hbudget hs hcount with ⟨s', hok, hs'⟩ | ⟨e, herror, he⟩
    · rw [hok]
      exact ih hs' (by omega)
    · rw [herror]
      exact .inr ⟨e, rfl, he⟩

end Sweep

theorem nilpotent_sorting {d : ℕ} (hF : forcing.Shaped n n) (hdegree : forcing.Graded n n d)
    (hcheck : checkInput linear eigenvalues forcing = .ok ())
    (htriangular : linear.isUpperTriangular = true)
    (hterms : ∀ k < n, ∀ t ∈ (forcing.component k).terms,
      classify k t.1 eigenvalues test = .ok .resonant ∨ Sweep.Isolates linear n k t.1) :
    Sorting eigenvalues test n forcing (nilpotent linear eigenvalues forcing test) := by
  have hA : linear.size = n := ((checkInput_ok hcheck).2.1).trans hF.nvars_eq
  have hbudget : ∀ k < n, (forcing.component k).terms.length ≤ sweepBudget forcing := by
    intro k _
    have hbox := Monomial.length_le_box (hF.component k).terms.sorted.nodup_monomials
      fun m hm => by
        obtain ⟨t, ht, rfl⟩ := List.mem_map.1 hm
        exact hdegree.degree?.supported k t ht
    rw [List.length_map] at hbox
    exact Nat.le_trans hbox (box_le_sweepBudget hF.nvars_eq)
  simp only [nilpotent, nilpotentWithin, hcheck, htriangular, if_true, hF.size_eq]
  rcases Sweep.components_swept hF hA hterms hbudget (Sweep.start_swept hF) le_rfl with
    ⟨s, hok, hs⟩ | ⟨e, herror, he⟩
  · rw [hok]
    exact ⟨hs.sized.remainder, hs.sized.generator, hs.remainder_nvars, hs.generator_nvars,
      fun k hk => hs.sorted k (Nat.zero_le k) hk⟩
  · rw [herror]
    exact he

/-- Where all terms are resonant, the right side is its own remainder. -/
theorem sorts_of_resonant (hF : forcing.Shaped n n)
    (h : ∀ k < n, ∀ t ∈ (forcing.component k).terms,
      classify k t.1 eigenvalues test = .ok .resonant) :
    Sorts eigenvalues test n forcing ⟨forcing, .zeros n n⟩ := by
  refine ⟨hF.size_eq, Tuple.zeros_size n n, hF.nvars_eq, rfl, fun k hk => ?_⟩
  rw [sortTerms_resonant (h k hk), (hF.component k).foldl_addTerm, Tuple.component_zeros]

theorem sortTerms_sound_of_ok {s s' : Halves C} {ts : List (Term C)}
    (hts : ∀ t ∈ ts, t.1.length = n) (h : sortTerms eigenvalues test k s ts = .ok s')
    (hs : s.Sound n k eigenvalues test) : s'.Sound n k eigenvalues test := by
  induction ts generalizing s with
  | nil =>
    cases h
    exact hs
  | cons t ts ih =>
    obtain ⟨ht, hts⟩ := List.forall_mem_cons.1 hts
    simp only [sortTerms] at h
    split at h
    · cases h
    · rename_i s₁ hterm
      exact ih hts h (sortTerm_sound ht hterm hs)

theorem Sorts.shaped (hF : forcing.Shaped n n) (h : Sorts eigenvalues test n forcing s) :
    s.remainder.Shaped n n ∧ s.generator.Shaped n n := by
  have hsound : ∀ k < n, (s.remainder.component k).Canonical n ∧
      (s.generator.component k).Canonical n := by
    intro k hk
    have hhalves := sortTerms_sound_of_ok (hF.component k).terms.length (h.sorted k hk)
      (.zero n k eigenvalues test)
    exact ⟨hhalves.remainder, hhalves.generator⟩
  exact ⟨.of_component h.remainder_size h.remainder_nvars fun k hk => (hsound k hk).1,
    .of_component h.generator_size h.generator_nvars fun k hk => (hsound k hk).2⟩

end Solvers

end Split

theorem classify_error {eigenvalues : List C} {test : ZeroTest C} {k : ℕ} {m : Monomial} {e : Error}
    (hk : k < eigenvalues.length) (hm : eigenvalues.length = m.length)
    (h : classify k m eigenvalues test = .error e) : e = .singularDivisor k m := by
  rw [classify_eq hm (List.getElem?_eq_getElem hk)] at h
  split at h
  · cases h
  · split at h
    · cases h
      rfl
    · cases h

namespace FormStrategy

variable {eigenvalues : List C} {test : ZeroTest C} {n d : ℕ} {linear forcing : Tuple C}

/-- For a diagonal linear part both solvers sort the terms of the right side. -/
theorem solve_sorting (strategy : FormStrategy) (test : ZeroTest C) (hA : linear.Shaped n n)
    (hlinear : linear.Graded n n 1) (hdiagonal : linear.IsDiagonal) (hF : forcing.Shaped n n)
    (hdegree : forcing.Graded n n d) (hlength : eigenvalues.length = n) :
    Split.Sorting eigenvalues test n forcing (strategy.solve linear eigenvalues forcing test) := by
  have hcheck := Split.checkInput_eq_ok hF.size_eq hF.nvars_eq hA.size_eq hA.nvars_eq hlength
  cases strategy with
  | semisimple => exact Split.semisimple_sorting test hF.size_eq hF.nvars_eq hcheck
  | nilpotent =>
    refine Split.nilpotent_sorting hF hdegree hcheck hdiagonal.isUpperTriangular fun k _ t ht => ?_
    have hm := (hF.component k).terms.length t ht
    exact .inr fun c =>
      Tuple.bracket_single_diagonal hm n k c (hdiagonal.supported hA hlinear)

/-- Both solvers leave a right side alone that has resonant terms only. -/
theorem solve_resonant {strategy : FormStrategy} (hA : linear.Shaped n n)
    (htriangular : strategy = nilpotent → linear.isUpperTriangular = true)
    (hF : forcing.Shaped n n) (hdegree : forcing.Graded n n d) (hlength : eigenvalues.length = n)
    (h : ∀ k < n, ∀ t ∈ (forcing.component k).terms,
      classify k t.1 eigenvalues test = .ok .resonant) :
    strategy.solve linear eigenvalues forcing test = .ok ⟨forcing, .zeros n n⟩ := by
  have hcheck := Split.checkInput_eq_ok hF.size_eq hF.nvars_eq hA.size_eq hA.nvars_eq hlength
  have hsorting : Split.Sorting eigenvalues test n forcing
      (strategy.solve linear eigenvalues forcing test) := by
    cases strategy with
    | semisimple => exact Split.semisimple_sorting test hF.size_eq hF.nvars_eq hcheck
    | nilpotent =>
      exact Split.nilpotent_sorting hF hdegree hcheck (htriangular rfl)
        fun k hk t ht => .inl (h k hk t ht)
  have hsorts := Split.sorts_of_resonant hF h
  cases hs : strategy.solve linear eigenvalues forcing test with
  | ok s =>
    rw [hs] at hsorting
    exact congrArg Except.ok (Split.Sorts.unique hsorting hsorts)
  | error e =>
    rw [hs] at hsorting
    exact absurd hsorting hsorts.not_refuses

/-- For a diagonal linear part the strategies find the same split, or both meet a singular
divisor. -/
theorem solve_agree (test : ZeroTest C) (hA : linear.Shaped n n) (hlinear : linear.Graded n n 1)
    (hdiagonal : linear.IsDiagonal) (hF : forcing.Shaped n n) (hdegree : forcing.Graded n n d)
    (hlength : eigenvalues.length = n) :
    (∃ s, ∀ strategy : FormStrategy, strategy.solve linear eigenvalues forcing test = .ok s) ∨
    ∀ strategy : FormStrategy, ∃ k m,
      strategy.solve linear eigenvalues forcing test = .error (.singularDivisor k m) := by
  have hsorting := fun strategy : FormStrategy =>
    strategy.solve_sorting test hA hlinear hdiagonal hF hdegree hlength
  have hsemisimple := hsorting semisimple
  cases hs : semisimple.solve linear eigenvalues forcing test with
  | ok s =>
    rw [hs] at hsemisimple
    refine .inl ⟨s, fun strategy => ?_⟩
    have hsame := hsorting strategy
    cases hs' : strategy.solve linear eigenvalues forcing test with
    | ok s' =>
      rw [hs'] at hsame
      exact congrArg Except.ok (Split.Sorts.unique hsame hsemisimple)
    | error e =>
      rw [hs'] at hsame
      exact absurd hsame (Split.Sorts.not_refuses hsemisimple)
  | error e =>
    rw [hs] at hsemisimple
    refine .inr fun strategy => ?_
    have hsame := hsorting strategy
    cases hs' : strategy.solve linear eigenvalues forcing test with
    | ok s' =>
      rw [hs'] at hsame
      exact absurd hsemisimple (Split.Sorts.not_refuses hsame)
    | error e' =>
      rw [hs'] at hsame
      obtain ⟨k, hk, t, ht, hclass⟩ := hsame
      have hm := (hF.component k).terms.length t ht
      rw [classify_error (hlength ▸ hk) (hlength.trans hm.symm) hclass]
      exact ⟨k, t.1, rfl⟩

end FormStrategy

end LieNormalForm
