import LieNormalForm.Proofs.Homological.Order
import LieNormalForm.Proofs.Support.Solver

/-!
# Sweeps come to an end

The sweep of a component handles different monomials only: with an upper-triangular linear part
all that is left of the component after a step is heavier than the term that was handled, or was
there before. All these monomials have the degree of the right side, so there are no more of them
than the box of exponents holds, and the budget is never used up. The arithmetic does not matter.
-/

namespace LieNormalForm

variable {C W : Type} [Coefficient C W]

namespace Poly

theorem lighter_weight_le (s t : Term C) :
    (lighter s t).1.weight ≤ s.1.weight ∧ (lighter s t).1.weight ≤ t.1.weight := by
  unfold lighter
  split <;> omega

theorem foldl_lighter_weight_le (t : Term C) (ts : List (Term C)) :
    ∀ u ∈ t :: ts, (ts.foldl lighter t).1.weight ≤ u.1.weight := by
  induction ts generalizing t with
  | nil => simp
  | cons s ts ih =>
    obtain ⟨ht, hs⟩ := lighter_weight_le t s
    obtain ⟨hfirst, hrest⟩ := List.forall_mem_cons.1 (ih (lighter t s))
    exact List.forall_mem_cons.2 ⟨hfirst.trans ht, List.forall_mem_cons.2 ⟨hfirst.trans hs, hrest⟩⟩

theorem lightest?_weight_le {p : Poly C} {t : Term C} (h : p.lightest? = some t) :
    ∀ u ∈ p.terms, t.1.weight ≤ u.1.weight := by
  unfold lightest? at h
  split at h
  · cases h
  · rename_i s ts hts
    cases h
    rw [hts]
    exact foldl_lighter_weight_le s ts

end Poly

namespace Split

variable {eigenvalues : List C} {test : ZeroTest C} {n d k : ℕ} {linear forcing : Tuple C}

namespace Sweep

/-- A monomial that is not handled yet and not lighter than any that is. -/
def Ahead (done : List Monomial) (m : Monomial) : Prop :=
  m ∉ done ∧ ∀ m' ∈ done, m'.weight ≤ m.weight

/-- The monomials of component `k` that are handled come up no more. -/
structure Handled (n d k : ℕ) (done : List Monomial) (s : Sweep C) : Prop where
  nodup : done.Nodup
  degree : ∀ m ∈ done, m.OfDegree n d
  ahead : (s.residual.component k).Supported (Ahead done)

variable {s s' : Sweep C} {done : List Monomial} {t : Term C}

theorem Ahead.of_heavier {m m' : Monomial} (hm : Ahead done m) (h : m.weight < m'.weight) :
    Ahead (m :: done) m' := by
  refine ⟨fun hmem => ?_, List.forall_mem_cons.2 ⟨h.le, fun l hl => (hm.2 l hl).trans h.le⟩⟩
  rcases List.mem_cons.1 hmem with rfl | hmem
  · exact lt_irrefl _ h
  · exact absurd (hm.2 m' hmem) (not_le.2 h)

theorem Ahead.cons {m m' : Monomial} (hm' : Ahead done m') (hle : m.weight ≤ m'.weight)
    (hne : m' ≠ m) : Ahead (m :: done) m' :=
  ⟨List.not_mem_cons_of_ne_of_not_mem hne hm'.1, List.forall_mem_cons.2 ⟨hle, hm'.2⟩⟩

/-- A step removes its term, and all else in the component was there before or comes from the
bracket. -/
theorem handle_supported {P : Monomial → Prop} (hk : k < s.residual.size)
    (hrest : (s.residual.component k).Supported P)
    (hbracket : ∀ c : C, (linear.bracket (.single s.residual.size k (.ofTerm t.1 c))).Supported
      fun i m => i = k → P m)
    (h : handle linear eigenvalues test s k t = .ok s') :
    (s'.residual.component k).Supported fun m => m ≠ t.1 ∧ P m := by
  have hremove : ∀ p : Poly C, p.Supported P →
      (p.removeTerm t.1).Supported fun m => m ≠ t.1 ∧ P m := by
    intro p hp u hu
    obtain ⟨hmem, hkept⟩ := List.mem_filter.1 hu
    exact ⟨by simpa using hkept, hp u hmem⟩
  unfold handle at h
  split at h
  · cases h
  · cases h
    rw [keep, Tuple.component_modify hk, if_pos rfl]
    exact hremove _ hrest
  · rename_i divisor _
    cases h
    have hresidual : s.residual.Supported fun i m => i = k → P m := by
      rintro i u hu rfl
      exact hrest u hu
    rw [eliminate, Tuple.component_modify (by rwa [Tuple.sub_size]), if_pos rfl]
    exact hremove _ (((hresidual.sub (hbracket (t.2 / divisor))) k).imp fun m hm => hm rfl)

theorem handle_handled (hA : linear.Supported fun i m => ∃ j < n, i ≤ j ∧ m = .coordinate n j)
    (hs : s.Graded n d eigenvalues test) (hk : k < n)
    (hdone : s.Handled n d k done) (ht : (s.residual.component k).lightest? = some t)
    (h : handle linear eigenvalues test s k t = .ok s') : s'.Handled n d k (t.1 :: done) := by
  have hmem := Poly.lightest?_mem ht
  have hlightest := Poly.lightest?_weight_le ht
  have hdegree := hs.residual.supported k t hmem
  have hahead := hdone.ahead t hmem
  have hrest : (s.residual.component k).Supported fun m =>
      m = t.1 ∨ Ahead (t.1 :: done) m := by
    intro u hu
    by_cases hsame : u.1 = t.1
    · exact .inl hsame
    · exact .inr ((hdone.ahead u hu).cons (hlightest u hu) hsame)
  have hstep := handle_supported (hk.trans_eq hs.residual.size_eq.symm) hrest (fun c =>
    (Tuple.bracket_single_triangular hdegree.1 s.residual.size k c hA).imp
      fun i m hm hi => (hm hi).imp_right hahead.of_heavier) h
  exact ⟨List.nodup_cons.2 ⟨hahead.1, hdone.nodup⟩,
    List.forall_mem_cons.2 ⟨hdegree, hdone.degree⟩, hstep.imp fun m hm => hm.2.resolve_left hm.1⟩

/-- A step fails with the fault of its divisor, never for want of steps. -/
theorem handle_ne_unfinished : handle linear eigenvalues test s k t ≠ .error .sweepUnfinished := by
  unfold handle
  split
  · rename_i e hclass
    rintro ⟨⟩
    unfold classify at hclass
    grind
  · simp
  · simp

theorem handle_ok (linear : Tuple C) (htest : AcceptsZeros test)
    (hlength : eigenvalues.length = n) (hs : s.Graded n d eigenvalues test) (hk : k < n)
    (ht : t ∈ (s.residual.component k).terms) :
    ∃ s', handle linear eigenvalues test s k t = .ok s' := by
  have hm := (hs.residual.supported k t ht).1
  obtain ⟨r, hr⟩ := classify_not_singular htest (hlength ▸ hk) (hlength.trans hm.symm)
  cases r <;> simp [handle, hr]

section Errors

variable {P : Sweep C → Prop} {e : Error}

/-- A sweep of a component fails for want of steps or at one of its terms. -/
theorem component_error (hstep : ∀ s s' t, t ∈ (s.residual.component k).terms →
      handle linear eigenvalues test s k t = .ok s' → P s → P s') {budget : ℕ}
    (h : component linear eigenvalues test k budget s = .error e) (hs : P s) :
    e = .sweepUnfinished ∨ ∃ s₁ t, P s₁ ∧ t ∈ (s₁.residual.component k).terms ∧
      handle linear eigenvalues test s₁ k t = .error e := by
  induction budget generalizing s with
  | zero =>
    simp only [component] at h
    split at h
    · cases h
    · cases h
      exact .inl rfl
  | succ budget ih =>
    simp only [component] at h
    split at h
    · cases h
    · rename_i t ht
      have hmem := Poly.lightest?_mem ht
      split at h
      · rename_i hhandle
        cases h
        exact .inr ⟨s, t, hs, hmem, hhandle⟩
      · rename_i s₁ hhandle
        exact ih h (hstep s s₁ t hmem hhandle hs)

theorem components_error (hstep : ∀ k s s' t, t ∈ (s.residual.component k).terms →
      handle linear eigenvalues test s k t = .ok s' → P s → P s') {budget count : ℕ}
    (h : components linear eigenvalues test budget count s = .error e) (hs : P s) :
    e = .sweepUnfinished ∨ ∃ k < count, ∃ s₁ t, P s₁ ∧ t ∈ (s₁.residual.component k).terms ∧
      handle linear eigenvalues test s₁ k t = .error e := by
  induction count generalizing s with
  | zero => cases h
  | succ k ih =>
    simp only [components] at h
    split at h
    · rename_i hcomponent
      cases h
      exact (component_error (hstep k) hcomponent hs).imp_right fun hfailed =>
        ⟨k, Nat.lt_succ_self k, hfailed⟩
    · rename_i s₁ hcomponent
      refine (ih h (component_keeps (hstep k) hcomponent hs)).imp_right ?_
      rintro ⟨j, hj, hfailed⟩
      exact ⟨j, hj.trans (Nat.lt_succ_self k), hfailed⟩

end Errors

variable (hA : linear.Supported fun i m => ∃ j < n, i ≤ j ∧ m = .coordinate n j)
  (hlinear : linear.Graded n n 1)
include hA hlinear

/-- As long as the handled monomials and the budget make up for the box, the budget is enough. -/
theorem component_within (hs : s.Graded n d eigenvalues test) (hk : k < n)
    (hdone : s.Handled n d k done) {budget : ℕ} (hbudget : (d + 1) ^ n ≤ done.length + budget) :
    component linear eigenvalues test k budget s ≠ .error .sweepUnfinished := by
  induction budget generalizing s done with
  | zero =>
    have hnil : (s.residual.component k).terms = [] := by
      refine List.eq_nil_iff_forall_not_mem.2 fun t ht => ?_
      have hbox := Monomial.length_le_box
        (List.nodup_cons.2 ⟨(hdone.ahead t ht).1, hdone.nodup⟩)
        (List.forall_mem_cons.2 ⟨hs.residual.supported k t ht, hdone.degree⟩)
      rw [List.length_cons] at hbox
      omega
    simp [component, Poly.isZero, hnil]
  | succ budget ih =>
    simp only [component]
    split
    · simp
    · rename_i t ht
      have hmem := Poly.lightest?_mem ht
      split
      · rename_i e hstep
        exact fun he => handle_ne_unfinished (hstep.trans he)
      · rename_i s' hstep
        refine ih (handle_graded hlinear hmem hstep hs) (handle_handled hA hs hk hdone ht hstep) ?_
        rw [List.length_cons]
        omega

theorem components_within {count budget : ℕ} (hs : s.Graded n d eigenvalues test) (hcount : count ≤ n)
    (hbudget : (d + 1) ^ n ≤ budget) :
    components linear eigenvalues test budget count s ≠ .error .sweepUnfinished := by
  induction count generalizing s with
  | zero => simp [components]
  | succ k ih =>
    have hfresh : s.Handled n d k [] := ⟨.nil, by simp, fun t _ => ⟨by simp, by simp⟩⟩
    have hcomponent := component_within hA hlinear hs hcount hfresh
      (hbudget.trans (Nat.le_add_left ..))
    simp only [components]
    split
    · rename_i e hk
      exact fun he => hcomponent (hk.trans he)
    · rename_i s' hk
      exact ih (component_graded hlinear hk hs) (by omega)

/-- With a zero test that accepts exact zeros nothing else stops a sweep either. -/
theorem components_ok (htest : AcceptsZeros test) (hlength : eigenvalues.length = n)
    {count budget : ℕ} (hs : s.Graded n d eigenvalues test) (hcount : count ≤ n)
    (hbudget : (d + 1) ^ n ≤ budget) :
    ∃ s', components linear eigenvalues test budget count s = .ok s' := by
  cases hresult : components linear eigenvalues test budget count s with
  | ok s' => exact ⟨s', rfl⟩
  | error e =>
    have hstep : ∀ k (s s' : Sweep C) t, t ∈ (s.residual.component k).terms →
        handle linear eigenvalues test s k t = .ok s' →
        s.Graded n d eigenvalues test → s'.Graded n d eigenvalues test :=
      fun k s s' t ht hhandle hs => handle_graded hlinear ht hhandle hs
    rcases components_error hstep hresult hs with rfl | ⟨k, hk, s₁, t, hs₁, ht, hhandle⟩
    · exact absurd hresult (components_within hA hlinear hs hcount hbudget)
    · obtain ⟨s₂, hok⟩ := handle_ok linear htest hlength hs₁ (hk.trans_le hcount) ht
      rw [hok] at hhandle
      cases hhandle

end Sweep

variable (hA : linear.Shaped n n) (htest : AcceptsZeros test)
  (hlength : eigenvalues.length = n) (hF : forcing.Graded n n d)
include hA htest hlength hF

theorem nilpotent_ok (hlinear : linear.Graded n n 1)
    (htriangular : linear.isUpperTriangular = true) :
    ∃ s, nilpotent linear eigenvalues forcing test = .ok s := by
  have hcheck := checkInput_eq_ok hF.size_eq hF.nvars_eq hA.size_eq hA.nvars_eq hlength
  have hsupport := Tuple.supported_of_isUpperTriangular hA hlinear htriangular
  obtain ⟨s, hok⟩ := Sweep.components_ok hsupport hlinear htest hlength
    (Sweep.start_graded hF.degree?) le_rfl (box_le_sweepBudget hF.nvars_eq)
  simp only [nilpotent, nilpotentWithin, hcheck, htriangular, if_true, hF.size_eq, hok]
  exact ⟨_, rfl⟩

theorem semisimple_ok : ∃ s, semisimple linear eigenvalues forcing test = .ok s := by
  have hcheck := checkInput_eq_ok hF.size_eq hF.nvars_eq hA.size_eq hA.nvars_eq hlength
  have hsorting := semisimple_sorting test hF.size_eq hF.nvars_eq hcheck
  cases hsolve : semisimple linear eigenvalues forcing test with
  | ok s => exact ⟨s, rfl⟩
  | error e =>
    rw [hsolve] at hsorting
    obtain ⟨k, hk, t, ht, hclass⟩ := hsorting
    have hm := (hF.supported k t ht).1
    obtain ⟨r, hr⟩ := classify_not_singular htest (hlength ▸ hk) (hlength.trans hm.symm)
    rw [hclass] at hr
    cases hr

end Split

section Solve

variable {strategy : FormStrategy} {eigenvalues : List C} {test : ZeroTest C} {n d : ℕ}
  {linear forcing : Tuple C}

/-- A solver finds a split as long as the linear part fits the strategy. -/
theorem FormStrategy.solve_ok (hA : linear.Shaped n n) (hlinear : linear.Graded n n 1)
    (htriangular : strategy = .nilpotent → linear.isUpperTriangular = true)
    (htest : AcceptsZeros test) (hlength : eigenvalues.length = n) (hF : forcing.Graded n n d) :
    ∃ s, strategy.solve linear eigenvalues forcing test = .ok s := by
  cases strategy with
  | semisimple => exact Split.semisimple_ok hA htest hlength hF
  | nilpotent => exact Split.nilpotent_ok hA htest hlength hF hlinear (htriangular rfl)

theorem FormStrategy.solve_not_triangular (test : ZeroTest C) (hA : linear.Shaped n n)
    (htriangular : linear.isUpperTriangular = false) (hlength : eigenvalues.length = n)
    (hF : forcing.Graded n n d) :
    nilpotent.solve linear eigenvalues forcing test = .error .notTriangular := by
  have hcheck := Split.checkInput_eq_ok hF.size_eq hF.nvars_eq hA.size_eq hA.nvars_eq hlength
  simp [solve, Split.nilpotent, Split.nilpotentWithin, hcheck, htriangular]

end Solve

end LieNormalForm
