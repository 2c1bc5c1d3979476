import Mathlib.Data.Multiset.DershowitzManna
import LieNormalForm.Double.Complex
import LieNormalForm.Proofs.Canonical.NormalForm
import LieNormalForm.Proofs.Homological.Termination

/-!
# Which sweeps come to an end

The check for a triangular linear part looks at its coefficients of degree one only. As long as
there are no terms of degree two or more, a step replaces its monomial by monomials of smaller
height, `Σ_j (n - j)·α_j`: a bracket exchanges a variable for a later one, or takes one away. The
heights of the monomials that are left then go down in the multiset order, whatever the arithmetic
and the zero test are, and the sweep comes to an end. A term of degree two can lead the sweep back
to where it was.
-/

namespace LieNormalForm

namespace Monomial

/-- `Σ_j (n - j)·α_j` over the exponents of `n` variables. -/
def height : Monomial → ℕ
  | [] => 0
  | a :: m => (m.length + 1) * a + height m

theorem height_product {m k : Monomial} (h : m.length = k.length) :
    height (m.product k) = height m + height k := by
  induction m generalizing k with
  | nil => simp [product, height, List.length_eq_zero_iff.1 h.symm]
  | cons a m ih =>
    obtain ⟨b, k, rfl⟩ := List.exists_cons_of_length_eq_add_one h.symm
    have htail := Nat.succ.inj h
    have hrest := ih htail
    have hlength := product_length htail
    simp only [product, List.zipWith_cons_cons, height] at hrest hlength ⊢
    rw [hrest, hlength, htail]
    ring

theorem height_one (n : ℕ) : height (one n) = 0 := by
  induction n with
  | zero => rfl
  | succ n ih =>
    rw [one, List.replicate_succ, height, Nat.mul_zero, Nat.zero_add]
    exact ih

theorem height_coordinate {n k : ℕ} (hk : k < n) : height (coordinate n k) + k = n := by
  induction k generalizing n with
  | zero =>
    obtain ⟨n, rfl⟩ := Nat.exists_eq_add_one.2 hk
    simp [coordinate_zero, height, height_one, one_length]
  | succ k ih =>
    obtain ⟨n, rfl⟩ := Nat.exists_eq_add_one.2 (Nat.zero_lt_of_lt hk)
    rw [coordinate_succ, height, Nat.mul_zero, Nat.zero_add, ← Nat.add_assoc, ih (by omega)]

/-- Taking a variable away takes its height away. -/
theorem height_lower? {n j : ℕ} {m m' : Monomial} (hm : m.length = n) (h : m.lower? j = some m') :
    height m + j = height m' + n := by
  have hlength : m'.length = n := (lower?_length h).trans hm
  rw [← product_coordinate_of_lower? hm h,
    height_product (hlength.trans (coordinate_length n j).symm), Nat.add_assoc,
    height_coordinate (hm ▸ length_lt_of_lower? h)]

theorem lower?_one (n j : ℕ) : (one n).lower? j = none := by
  have hzero : (one n).exponent j = 0 := by
    rw [exponent, List.getD_eq_getElem?_getD, one, List.getElem?_replicate]
    split <;> rfl
  rw [lower?, if_pos hzero]

end Monomial

open Monomial

variable {C W : Type} [Coefficient C W] {n k : ℕ}

namespace Tuple

variable {A : Tuple C}

/-- With terms of degree at most one, a triangular field has constants and later variables. -/
theorem supported_of_affine (hA : A.Shaped n n) (haffine : A.Supported fun _ m => m.degree ≤ 1)
    (h : A.isUpperTriangular = true) :
    A.Supported fun i m => m = one n ∨ ∃ j < n, i ≤ j ∧ m = coordinate n j := by
  intro i t ht
  have hlength := (hA.component i).terms.length t ht
  rcases Nat.le_one_iff_eq_zero_or_eq_one.1 (haffine i t ht) with hzero | hone
  · exact .inl (eq_one_of_degree hlength hzero)
  · obtain ⟨j, hj, hcoordinate⟩ := exists_coordinate ⟨hlength, hone⟩
    refine .inr ⟨j, hj, ?_, hcoordinate⟩
    by_contra hlt
    have hentry := isUpperTriangular_iff.1 h i (by rw [hA.size_eq]; exact hA.lt_of_mem ht) j
      (by rwa [hA.nvars_eq]) (by omega)
    rw [linearPart_entry_nonzero hA hj ht hcoordinate] at hentry
    cases hentry

/-- The bracket with a single term brings in lower monomials of its component only. -/
theorem bracket_single_affine {m : Monomial} (hm : m.length = n) (len k : ℕ) (c : C)
    (hA : A.Supported fun i m => m = one n ∨ ∃ j < n, i ≤ j ∧ m = coordinate n j) :
    (A.bracket (single len k (Poly.ofTerm m c))).Supported fun i m' =>
      i = k → m' = m ∨ m'.height < m.height := by
  refine hA.bracket (single_supported len k m c) ?_ ?_
  · rintro i j a a' b (rfl | ⟨l, -, -, rfl⟩) hlower ⟨rfl, rfl⟩ -
    · rw [lower?_one] at hlower
      cases hlower
    · obtain ⟨rfl, rfl⟩ := lower?_coordinate hlower
      exact .inl (one_product hm)
  · rintro i j a a' b ⟨rfl, rfl⟩ hlower hb -
    have hj : j < n := hm ▸ length_lt_of_lower? hlower
    have hlength : a'.length = n := (lower?_length hlower).trans hm
    have hheight := height_lower? hm hlower
    rcases hb with rfl | ⟨l, hl, hjl, rfl⟩
    · rw [height_product (hlength.trans (one_length n).symm), height_one]
      exact .inr (by omega)
    · rcases hjl.eq_or_lt with rfl | hlt
      · exact .inl (product_coordinate_of_lower? hm hlower)
      · have hcoordinate := height_coordinate hl
        rw [height_product (hlength.trans (coordinate_length n l).symm)]
        exact .inr (by omega)

end Tuple

/-- Trading one element of a finite set for elements of smaller rank goes down in the multiset
order of the ranks. -/
theorem isDershowitzMannaLT_of_trade {α : Type} [DecidableEq α] (rank : α → ℕ) {s s' : Finset α}
    {a : α} (ha : a ∈ s) (h : ∀ x ∈ s', x ∈ s.erase a ∨ rank x < rank a) :
    Multiset.IsDershowitzMannaLT (s'.val.map rank) (s.val.map rank) := by
  have hsplit : ∀ t : Finset α, t.val.map rank =
      (t.filter (· ∈ s' ∩ s.erase a)).val.map rank + (t.filter (· ∉ s' ∩ s.erase a)).val.map rank :=
    fun t => by rw [← Multiset.map_add, Finset.filter_val, Finset.filter_val, Multiset.filter_add_not]
  have hkept : s'.filter (· ∈ s' ∩ s.erase a) = s.filter (· ∈ s' ∩ s.erase a) := by
    ext x
    simp only [Finset.mem_filter, Finset.mem_inter, Finset.mem_erase]
    tauto
  have hgone : a ∈ s.filter (· ∉ s' ∩ s.erase a) := by simp [ha]
  refine ⟨_, _, _, ?_, hsplit s', hkept ▸ hsplit s, fun y hy => ?_⟩
  · exact fun hempty => Multiset.notMem_zero _ (hempty ▸ Multiset.mem_map_of_mem rank hgone)
  · obtain ⟨x, hx, rfl⟩ := Multiset.mem_map.1 hy
    obtain ⟨hmem, hnew⟩ := Finset.mem_filter.1 hx
    refine ⟨rank a, Multiset.mem_map_of_mem rank hgone, (h x hmem).resolve_left fun hold => ?_⟩
    exact hnew (Finset.mem_inter.2 ⟨hmem, hold⟩)

namespace Split

/-- From some budget on there is one answer, and it is not that the budget is used up. -/
def Settles {α : Type} (run : ℕ → Except Error α) : Prop :=
  ∃ budget answer, answer ≠ .error .sweepUnfinished ∧ ∀ b, budget ≤ b → run b = answer

/-- A run that fails as its first part fails, and else goes on with the answer of this part. -/
theorem Settles.bind {α β : Type} {run : ℕ → Except Error α} {whole : ℕ → Except Error β}
    (h : Settles run) (next : α → ℕ → Except Error β)
    (herror : ∀ b e, run b = .error e → whole b = .error e)
    (hok : ∀ b a, run b = .ok a → whole b = next a b)
    (hnext : ∀ b a, run b = .ok a → Settles (next a)) : Settles whole := by
  obtain ⟨budget, answer, hanswer, hrun⟩ := h
  cases answer with
  | error e =>
    exact ⟨budget, .error e, fun he => hanswer (by cases he; rfl), fun b hb =>
      herror b e (hrun b hb)⟩
  | ok a =>
    obtain ⟨budget', answer', hanswer', hrun'⟩ := hnext budget a (hrun budget le_rfl)
    refine ⟨max budget budget', answer', hanswer', fun b hb => ?_⟩
    rw [hok b a (hrun b (by omega)), hrun' b (by omega)]

variable {linear forcing : Tuple C} {eigenvalues : List C} {test : ZeroTest C}

namespace Sweep

variable {s s' : Sweep C} {t : Term C}

/-- The monomials that are left in component `k`. -/
def monomials (s : Sweep C) (k : ℕ) : Finset Monomial :=
  ((s.residual.component k).terms.map Prod.fst).toFinset

theorem mem_monomials {m : Monomial} :
    m ∈ s.monomials k ↔ ∃ t ∈ (s.residual.component k).terms, t.1 = m := by
  simp [monomials]

section Affine

variable (hlinear : linear.Shaped n n)
  (hA : linear.Supported fun i m => m = one n ∨ ∃ j < n, i ≤ j ∧ m = coordinate n j)
include hA

theorem handle_lt (hs : s.Shaped n) (hk : k < n) (ht : t ∈ (s.residual.component k).terms)
    (h : handle linear eigenvalues test s k t = .ok s') :
    Multiset.IsDershowitzMannaLT ((s'.monomials k).val.map height)
      ((s.monomials k).val.map height) := by
  have hm := (hs.residual.component k).terms.length t ht
  have hrest : (s.residual.component k).Supported fun m =>
      m ∈ s.monomials k ∨ m.height < t.1.height :=
    fun u hu => .inl (mem_monomials.2 ⟨u, hu, rfl⟩)
  have hsame : t.1 ∈ s.monomials k := mem_monomials.2 ⟨t, ht, rfl⟩
  have hbracket : ∀ c : C, (linear.bracket (.single s.residual.size k (.ofTerm t.1 c))).Supported
      fun i m => i = k → m ∈ s.monomials k ∨ m.height < t.1.height := by
    intro c i u hu hi
    refine (Tuple.bracket_single_affine hm s.residual.size k c hA i u hu hi).imp_left ?_
    intro heq
    rwa [heq]
  have hstep := handle_supported (hk.trans_eq hs.residual.size_eq.symm) hrest hbracket h
  refine isDershowitzMannaLT_of_trade height hsame fun m hm => ?_
  obtain ⟨u, hu, rfl⟩ := mem_monomials.1 hm
  obtain ⟨hne, hmem⟩ := hstep u hu
  exact hmem.imp_left fun hold => Finset.mem_erase.2 ⟨hne, hold⟩

variable (eigenvalues test)
include hlinear

theorem component_settles (hk : k < n) (hs : s.Shaped n) :
    Settles fun budget => component linear eigenvalues test k budget s := by
  -- on the heights of what is left of the component
  induction s using (InvImage.wf (fun s : Sweep C => (s.monomials k).val.map height)
    Multiset.wellFounded_isDershowitzMannaLT).induction with
  | _ s ih =>
    cases ht : (s.residual.component k).lightest? with
    | none =>
      have hzero := (Poly.lightest?_eq_none_iff _).1 ht
      refine ⟨0, .ok s, by simp, fun b _ => ?_⟩
      cases b <;> simp [component, ht, hzero]
    | some t =>
      have hmem := Poly.lightest?_mem ht
      cases hstep : handle linear eigenvalues test s k t with
      | error e =>
        refine ⟨1, .error e, fun he => handle_ne_unfinished (hstep.trans he), fun b hb => ?_⟩
        obtain ⟨b, rfl⟩ := Nat.exists_eq_add_one.2 hb
        simp only [component, ht, hstep]
      | ok s' =>
        obtain ⟨budget, answer, hanswer, hrun⟩ := ih s'
          (handle_lt hA hs hk hmem hstep) (handle_shaped hlinear hmem hstep hs)
        refine ⟨budget + 1, answer, hanswer, fun b hb => ?_⟩
        obtain ⟨b, rfl⟩ := Nat.exists_eq_add_one.2 (Nat.zero_lt_of_lt hb)
        simp only [component, ht, hstep]
        exact hrun b (Nat.le_of_succ_le_succ hb)

theorem components_settles {count : ℕ} (hcount : count ≤ n) (hs : s.Shaped n) :
    Settles fun budget => components linear eigenvalues test budget count s := by
  induction count generalizing s with
  | zero => exact ⟨0, .ok s, by simp, fun _ _ => rfl⟩
  | succ k ih =>
    refine (component_settles eigenvalues test hlinear hA hcount hs).bind
      (fun s' budget => components linear eigenvalues test budget k s') ?_ ?_ ?_
    · intro b e hcomponent
      simp only [components, hcomponent]
    · intro b s' hcomponent
      simp only [components, hcomponent]
    · intro b s' hcomponent
      exact ih (by omega) (component_keeps
        (fun _ _ _ ht hhandle hs => handle_shaped hlinear ht hhandle hs) hcomponent hs)

end Affine

theorem components_budget {budget count : ℕ}
    (h : components linear eigenvalues test budget count s ≠ .error .sweepUnfinished) (extra : ℕ) :
    components linear eigenvalues test (budget + extra) count s =
      components linear eigenvalues test budget count s := by
  induction count generalizing s with
  | zero => rfl
  | succ k ih =>
    simp only [components] at h ⊢
    cases hcomponent : component linear eigenvalues test k budget s with
    | error e =>
      rw [hcomponent] at h
      rw [component_budget (by rwa [hcomponent]), hcomponent]
    | ok s' =>
      rw [hcomponent] at h
      rw [component_budget (by simp [hcomponent]), hcomponent]
      exact ih h

/-- What is left after one step of component `k`. -/
def next? (linear : Tuple C) (eigenvalues : List C) (test : ZeroTest C) (k : ℕ)
    (residual : Tuple C) : Option (Tuple C) :=
  (residual.component k).lightest?.bind fun t =>
    (handle linear eigenvalues test ⟨residual, residual, residual⟩ k t).toOption.map Sweep.residual

/-- What is left after a step does not depend on what was sorted out before. -/
theorem handle_of_next? {r : Tuple C} (h : next? linear eigenvalues test k s.residual = some r) :
    ∃ t s', (s.residual.component k).lightest? = some t ∧
      handle linear eigenvalues test s k t = .ok s' ∧ s'.residual = r := by
  obtain ⟨t, ht, hstep⟩ := Option.bind_eq_some_iff.1 h
  unfold handle at hstep ⊢
  refine ⟨t, ?_⟩
  cases hclass : classify k t.1 eigenvalues test with
  | error e =>
    rw [hclass] at hstep
    cases hstep
  | ok verdict =>
    rw [hclass] at hstep
    cases verdict with
    | resonant => exact ⟨s.keep k t, ht, rfl, Option.some.inj hstep⟩
    | eliminable d => exact ⟨eliminate linear s k t.1 (t.2 / d), ht, rfl, Option.some.inj hstep⟩

/-- A sweep that goes round in a circle uses up every budget. -/
theorem component_unfinished {round : List (Tuple C)}
    (hround : ∀ r ∈ round, ∃ r' ∈ round, next? linear eigenvalues test k r = some r')
    (hs : s.residual ∈ round) (budget : ℕ) :
    component linear eigenvalues test k budget s = .error .sweepUnfinished := by
  induction budget generalizing s with
  | zero =>
    obtain ⟨r, -, hnext⟩ := hround _ hs
    obtain ⟨t, -, ht, -, -⟩ := handle_of_next? hnext
    have hzero : (s.residual.component k).isZero ≠ true :=
      fun hzero => by simp [(Poly.lightest?_eq_none_iff _).2 hzero] at ht
    rw [component, if_neg hzero]
  | succ budget ih =>
    obtain ⟨r, hr, hnext⟩ := hround _ hs
    obtain ⟨t, s', ht, hhandle, hs'⟩ := handle_of_next? hnext
    simp only [component, ht, hhandle]
    exact ih (hs' ▸ hr)

end Sweep

theorem checkInput_ne_unfinished :
    checkInput linear eigenvalues forcing ≠ .error .sweepUnfinished := by
  simp only [checkInput, requireSizes]
  grind

variable (eigenvalues test) in
theorem nilpotentWithin_settles (hlinear : linear.WellFormed) (hforcing : forcing.WellFormed)
    (haffine : linear.Supported fun _ m => m.degree ≤ 1) :
    Settles fun budget => nilpotentWithin budget linear eigenvalues forcing test := by
  cases hcheck : checkInput linear eigenvalues forcing with
  | error e =>
    refine ⟨0, .error e, fun he => ?_, fun b _ => by simp only [nilpotentWithin, hcheck]⟩
    exact checkInput_ne_unfinished (hcheck.trans (by cases he; rfl))
  | ok u =>
    obtain ⟨hsize, hlsize, hlvars, -⟩ := checkInput_ok hcheck
    have hA := hlinear.shaped hlsize hlvars
    by_cases htriangular : linear.isUpperTriangular = true
    · have hlater := Tuple.supported_of_affine hA haffine htriangular
      have hstart := Sweep.start_shaped (hforcing.shaped hsize rfl)
      refine (Sweep.components_settles eigenvalues test hA hlater hsize.le hstart).bind
        (fun s _ => .ok ⟨s.remainder, s.generator⟩) ?_ ?_ ?_
      · intro b e hcomponents
        simp only [nilpotentWithin, hcheck, htriangular, if_true, hcomponents]
      · intro b s hcomponents
        simp only [nilpotentWithin, hcheck, htriangular, if_true, hcomponents]
      · exact fun b s _ => ⟨0, .ok ⟨s.remainder, s.generator⟩, by simp, fun _ _ => rfl⟩
    · refine ⟨0, .error .notTriangular, by simp, fun b _ => ?_⟩
      simp only [nilpotentWithin, hcheck, if_neg htriangular]

theorem nilpotentWithin_budget {budget : ℕ}
    (h : nilpotentWithin budget linear eigenvalues forcing test ≠ .error .sweepUnfinished)
    (extra : ℕ) : nilpotentWithin (budget + extra) linear eigenvalues forcing test =
      nilpotentWithin budget linear eigenvalues forcing test := by
  simp only [nilpotentWithin] at h ⊢
  split
  · rfl
  · rename_i hcheck
    simp only [hcheck] at h
    split
    · rename_i htriangular
      rw [if_pos htriangular] at h
      rw [Sweep.components_budget]
      intro he
      rw [he] at h
      exact h rfl
    · rfl

/-- The own budget of the solver is enough for a linear part of degree one. -/
theorem nilpotent_ne_unfinished {d : ℕ} (hlinear : linear.WellFormed)
    (hdegree : linear.Supported fun _ m => m.degree = 1)
    (hF : forcing.Supported fun _ m => m.length = forcing.nvars ∧ m.degree = d) :
    nilpotent linear eigenvalues forcing test ≠ .error .sweepUnfinished := by
  simp only [nilpotent, nilpotentWithin]
  split
  · rename_i e hcheck
    exact fun he => checkInput_ne_unfinished (hcheck.trans (by cases he; rfl))
  · rename_i hcheck
    obtain ⟨hsize, hlsize, hlvars, -⟩ := checkInput_ok hcheck
    have hA := hlinear.shaped hlsize hlvars
    have hgraded : linear.Graded forcing.nvars forcing.nvars 1 :=
      ⟨hlsize, hlvars, fun k t ht => ⟨(hA.component k).terms.length t ht, hdegree k t ht⟩⟩
    have hforcing : forcing.Graded forcing.nvars forcing.nvars d := ⟨hsize, rfl, hF⟩
    split
    · rename_i htriangular
      have hstart : (Sweep.start forcing).Graded _ _ eigenvalues test :=
        Sweep.start_graded hforcing.degree?
      have hcomponents := Sweep.components_within
        (Tuple.supported_of_isUpperTriangular hA hgraded htriangular) hgraded hstart hsize.le
        (box_le_sweepBudget rfl)
      split
      · rename_i e hsweep
        exact fun he => hcomponents (hsweep.trans (by cases he; rfl))
      · simp
    · simp

end Split

theorem checkHomological_degree {linear forcing : Tuple C} {eigenvalues : List C}
    {vars : Variables} {d : ℕ} {u : Unit}
    (h : checkHomological linear eigenvalues forcing vars d = .ok u) :
    forcing.Supported fun _ m => m.degree = d := by
  unfold checkHomological at h
  split at h
  · cases h
  · split at h
    · cases h
    · split at h
      · rw [Tuple.supported_iff]
        intro k p hk
        exact Tuple.checkDegree_ok h p (List.mem_of_getElem? hk)
      · cases h

/-- The sweep comes to an end for every linear part without terms of degree two or more: from some
budget on the answer does not change and is not that the budget is used up. If all terms of the
linear part have degree one, this is what the checked entry answers. -/
theorem solveHomological_settles {linear forcing : Tuple C} (hlinear : linear.WellFormed)
    (hforcing : forcing.WellFormed) (haffine : linear.Supported fun _ m => m.degree ≤ 1)
    (eigenvalues : List C) (test : ZeroTest C) :
    ∃ budget answer, answer ≠ .error .sweepUnfinished ∧
      (∀ b, budget ≤ b → Split.nilpotentWithin b linear eigenvalues forcing test = answer) ∧
      ((linear.Supported fun _ m => m.degree = 1) → ∀ vars d,
        checkHomological linear eigenvalues forcing vars d = .ok () →
        solveHomological .nilpotent linear eigenvalues forcing vars d test = answer) := by
  obtain ⟨budget, answer, hanswer, hrun⟩ :=
    Split.nilpotentWithin_settles eigenvalues test hlinear hforcing haffine
  refine ⟨budget, answer, hanswer, hrun, fun hdegree vars d hcheck => ?_⟩
  have hlength : ∀ k, ∀ t ∈ (forcing.component k).terms, t.1.length = forcing.nvars :=
    fun k t ht => (hforcing.component k).terms.length t ht
  have henough : Split.nilpotent linear eigenvalues forcing test ≠ .error .sweepUnfinished :=
    Split.nilpotent_ne_unfinished hlinear hdegree fun k t ht =>
      ⟨hlength k t ht, checkHomological_degree hcheck k t ht⟩
  simp only [solveHomological, hcheck]
  exact (Split.nilpotentWithin_budget henough budget).symm.trans (hrun _ (Nat.le_add_left ..))

section Doubles

/-- The field `(2x + y + 1, 2y - 1)` over doubles. -/
def shiftedField : Tuple FloatComplex :=
  ⟨2, [⟨2, [([0, 0], ⟨1, 0⟩), ([0, 1], ⟨1, 0⟩), ([1, 0], ⟨2, 0⟩)]⟩,
    ⟨2, [([0, 0], ⟨-1, 0⟩), ([0, 1], ⟨2, 0⟩)]⟩]⟩

/-- The forcing term `(y³, x²y)` over doubles. -/
def cubicForcing : Tuple FloatComplex :=
  ⟨2, [⟨2, [([0, 3], ⟨1, 0⟩)]⟩, ⟨2, [([2, 1], ⟨1, 0⟩)]⟩]⟩

theorem solveHomological_settles_shifted :
    (∃ budget answer, answer ≠ .error .sweepUnfinished ∧
      ∀ b, budget ≤ b → Split.nilpotentWithin b shiftedField [⟨2, 0⟩, ⟨2, 0⟩] cubicForcing
        Coefficient.isZero = answer) ∧
    solveHomological .nilpotent (shiftedField.homogeneousPart 1) [⟨2, 0⟩, ⟨2, 0⟩] cubicForcing
      ⟨["x", "y"]⟩ 3 Coefficient.isZero ≠ .error .sweepUnfinished := by
  have hforcing : cubicForcing.WellFormed := by decide +kernel
  have hlinear : (shiftedField.homogeneousPart 1).Supported fun _ m => m.degree = 1 := by
    decide +kernel
  obtain ⟨budget, answer, hanswer, hrun, -⟩ := solveHomological_settles
    (show shiftedField.WellFormed by decide +kernel) hforcing (by decide +kernel)
    [⟨2, 0⟩, ⟨2, 0⟩] Coefficient.isZero
  obtain ⟨-, answer', hanswer', -, hentry⟩ := solveHomological_settles
    (show (shiftedField.homogeneousPart 1).WellFormed by decide +kernel) hforcing
    (hlinear.imp fun _ _ hm => hm.le) [⟨2, 0⟩, ⟨2, 0⟩] Coefficient.isZero
  refine ⟨⟨budget, answer, hanswer, hrun⟩, ?_⟩
  rw [hentry hlinear ⟨["x", "y"]⟩ 3 rfl]
  exact hanswer'

deriving instance DecidableEq for FloatComplex

/-- The field `(x - xy, 1)` over doubles. -/
def quadraticField : Tuple FloatComplex :=
  ⟨2, [⟨2, [([1, 0], ⟨1, 0⟩), ([1, 1], ⟨-1, 0⟩)]⟩, ⟨2, [([0, 0], ⟨1, 0⟩)]⟩]⟩

/-- The forcing term `(x², 0)` over doubles. -/
def quadraticForcing : Tuple FloatComplex := ⟨2, [⟨2, [([2, 0], ⟨1, 0⟩)]⟩, ⟨2, []⟩]⟩

/-- What is left on the way round: `x²`, `x²y`, `-x² + x²y²` and `-x²y + x²y²`. -/
def quadraticRound : List (Tuple FloatComplex) :=
  [quadraticForcing,
    ⟨2, [⟨2, [([2, 1], ⟨1, -0.0⟩)]⟩, ⟨2, []⟩]⟩,
    ⟨2, [⟨2, [([2, 0], ⟨-1, 0⟩), ([2, 2], ⟨1, -0.0⟩)]⟩, ⟨2, []⟩]⟩,
    ⟨2, [⟨2, [([2, 1], ⟨-1, -0.0⟩), ([2, 2], ⟨1, -0.0⟩)]⟩, ⟨2, []⟩]⟩]

/-- The checks let a linear part with a term of degree two pass, and the sweep never ends. -/
theorem nilpotentWithin_quadratic :
    quadraticField.WellFormed ∧ quadraticForcing.WellFormed ∧
      checkHomological quadraticField [⟨1, 0⟩, ⟨0, 0⟩] quadraticForcing ⟨["x", "y"]⟩ 2 = .ok () ∧
      quadraticField.isUpperTriangular = true ∧
      ∀ budget, Split.nilpotentWithin budget quadraticField [⟨1, 0⟩, ⟨0, 0⟩] quadraticForcing
        Coefficient.isZero = .error .sweepUnfinished := by
  refine ⟨by decide +kernel, by decide +kernel, rfl, by decide +kernel, fun budget => ?_⟩
  have hround : ∀ r ∈ quadraticRound, ∃ r' ∈ quadraticRound, Split.Sweep.next? quadraticField
      [⟨1, 0⟩, ⟨0, 0⟩] Coefficient.isZero 0 r = some r' := by
    decide +kernel
  have hlast : Split.Sweep.component quadraticField [⟨1, 0⟩, ⟨0, 0⟩] Coefficient.isZero 1 budget
      (.start quadraticForcing) = .ok (.start quadraticForcing) := by
    cases budget <;> rfl
  have hfirst := Split.Sweep.component_unfinished hround
    (s := .start quadraticForcing) (List.mem_cons_self ..) budget
  have htriangular : quadraticField.isUpperTriangular = true := by decide +kernel
  have hcheck : Split.checkInput quadraticField [⟨1, 0⟩, ⟨0, 0⟩] quadraticForcing = .ok () := rfl
  simp only [Split.nilpotentWithin, hcheck, htriangular, if_true]
  rw [show quadraticForcing.size = 2 from rfl]
  simp only [Split.Sweep.components, hlast, hfirst]

end Doubles

end LieNormalForm
