import LieNormalForm.Proofs.Complex
import LieNormalForm.Proofs.Value.Tuple
import LieNormalForm.NormalForm

/-!
# Symmetries of the coordinates

A symmetry permutes the variables, together with the components that belong to them, and may
conjugate all coefficients. On values it is a ring automorphism that renames variables, applied to
the members of a sequence in their new order.
-/

namespace LieNormalForm

open ExactComplex (conjugation)

/-- A permutation of `n` variables, optionally combined with conjugation. -/
structure Symmetry (n : ℕ) where
  place : Equiv.Perm (Fin n)
  conjugates : Bool

/-- Two computations that fail together, or give a value and its image. -/
def Follows {A B : Type} (image : A → B) (r : Except Error A) (r' : Except Error B) : Prop :=
  (∃ a, r = .ok a ∧ r' = .ok (image a)) ∨ ∃ e e', r = .error e ∧ r' = .error e'

section Terms

variable {C W : Type} [Coefficient C W]

/-- A term with a new monomial comes in somewhere between the others. -/
theorem insertTerm_perm {t : Term C} (ht : Coefficient.isZero t.2 = false) {ts : List (Term C)}
    (hnew : ∀ u ∈ ts, u.1 ≠ t.1) : (insertTerm t ts).Perm (t :: ts) := by
  induction ts with
  | nil =>
    rw [insertTerm, ht]
    exact .refl _
  | cons u ts ih =>
    obtain ⟨hu, hts⟩ := List.forall_mem_cons.1 hnew
    unfold insertTerm
    split
    · exact ((ih hts).cons u).trans (.swap t u ts)
    · rename_i heq
      exact absurd (Monomial.order_eq_iff.1 heq) hu
    · rw [ht]
      exact .refl _

namespace Poly

variable {n : ℕ} {p : Poly C} {ts : List (Term C)}

theorem Canonical.foldl_terms (hp : p.Canonical n) (hts : ∀ t ∈ ts, t.1.length = n) :
    (ts.foldl (fun q t => q.addTerm t.1 t.2) p).Canonical n := by
  induction ts generalizing p with
  | nil => exact hp
  | cons t ts ih =>
    obtain ⟨ht, hts⟩ := List.forall_mem_cons.1 hts
    exact ih (hp.addTerm ht t.2) hts

/-- Terms with different monomials are put in order. -/
theorem foldl_addTerm_perm (hts : ∀ t ∈ ts, Coefficient.isZero t.2 = false)
    (hnodup : (ts.map Prod.fst).Nodup) (hnew : ∀ t ∈ ts, ∀ u ∈ p.terms, u.1 ≠ t.1) :
    (ts.foldl (fun q t => q.addTerm t.1 t.2) p).terms.Perm (ts ++ p.terms) := by
  induction ts generalizing p with
  | nil => exact .refl _
  | cons t ts ih =>
    obtain ⟨ht, hts⟩ := List.forall_mem_cons.1 hts
    obtain ⟨hnewt, hnew⟩ := List.forall_mem_cons.1 hnew
    rw [List.map_cons, List.nodup_cons] at hnodup
    have hinsert : (p.addTerm t.1 t.2).terms.Perm (t :: p.terms) := by
      rw [addTerm_terms]
      exact insertTerm_perm ht hnewt
    refine (ih hts hnodup.2 fun u hu v hv => ?_).trans
      ((hinsert.append_left ts).trans List.perm_middle)
    rcases List.mem_cons.1 (hinsert.mem_iff.1 hv) with rfl | hv
    · exact fun heq => hnodup.1 (heq ▸ List.mem_map_of_mem hu)
    · exact hnew u hu v hv

end Poly

end Terms

theorem Poly.value_foldl_addTerm {C W : Type} [Weight W] [ExactField C W] (p : Poly C)
    (ts : List (Term C)) :
    (ts.foldl (fun q t => q.addTerm t.1 t.2) p).value = p.value + termsValue ts := by
  induction ts generalizing p with
  | nil => exact (add_zero _).symm
  | cons t ts ih =>
    rw [List.foldl_cons, ih, value_addTerm, termsValue_cons, add_assoc]
    rfl

namespace Symmetry

variable {n : ℕ} (s : Symmetry n)

/-- The permutation of all variables that leaves those from `n` on where they are. -/
def index : Equiv.Perm ℕ := s.place.extendDomain Fin.equivSubtype

/-- The exponents, each with its variable. -/
def monomial (m : Monomial) : Monomial :=
  (List.range m.length).map fun j => m.exponent (s.index.symm j)

variable {C R : Type} [ExactReal R] [ExactComplex C R]

/-- What happens to a coefficient. -/
def number : C →+* C := if s.conjugates then conjugation C else RingHom.id C

def term (t : Term C) : Term C := (s.monomial t.1, s.number t.2)

/-- The polynomial in permuted variables. -/
def poly (p : Poly C) : Poly C :=
  (p.terms.map s.term).foldl (fun q t => q.addTerm t.1 t.2) (.zero p.nvars)

/-- The tuple in permuted variables, each component at the place of its variable. -/
def tuple (f : Tuple C) : Tuple C :=
  ⟨f.nvars, (List.range f.size).map fun k => s.poly (f.component (s.index.symm k))⟩

/-- The eigenvalues, each with its variable. -/
def eigenvalues (l : List C) : List C :=
  (List.range l.length).map fun k => s.number (l.getD (s.index.symm k) 0)

/-- Everything that a normal form holds, in permuted variables. -/
def normalForm (N : NormalForm C) : NormalForm C :=
  ⟨s.tuple N.field, s.tuple N.generator, s.eigenvalues N.eigenvalues, N.family.map s.tuple,
    N.components.map s.tuple⟩

section Index

theorem index_of_le {k : ℕ} (hk : n ≤ k) : s.index k = k :=
  Equiv.Perm.extendDomain_apply_not_subtype _ _ (not_lt.2 hk)

theorem index_symm_of_le {k : ℕ} (hk : n ≤ k) : s.index.symm k = k := by
  rw [Equiv.symm_apply_eq, s.index_of_le hk]

theorem index_lt {k : ℕ} (hk : k < n) : s.index k < n := by
  rw [index, Equiv.Perm.extendDomain_apply_subtype s.place Fin.equivSubtype hk]
  exact (Fin.equivSubtype _).2

theorem index_symm_lt {k : ℕ} (hk : k < n) : s.index.symm k < n := by
  by_contra hle
  have h := s.index_of_le (not_lt.1 hle)
  rw [Equiv.apply_symm_apply] at h
  omega

end Index

section Number

theorem number_conjugates (h : s.conjugates = true) (c : C) :
    s.number c = ComplexNumber.conj c := by
  rw [number, if_pos h]
  rfl

theorem number_keeps (h : s.conjugates = false) (c : C) : s.number c = c := by
  rw [number, if_neg (by rw [h]; exact Bool.false_ne_true), RingHom.id_apply]

theorem number_ofWeight (w : R) :
    s.number (Coefficient.ofWeight w : C) = Coefficient.ofWeight w := by
  cases h : s.conjugates with
  | true => rw [s.number_conjugates h, ExactComplex.conj_ofWeight]
  | false => rw [s.number_keeps h]

theorem isZero_number (c : C) : Coefficient.isZero (s.number c) = Coefficient.isZero c := by
  rw [Bool.eq_iff_iff, ExactField.isZero_iff, ExactField.isZero_iff, map_eq_zero]

/-- A zero test that takes conjugate numbers alike takes a number as it takes its image. -/
theorem test_number {test : ZeroTest C}
    (htest : s.conjugates = true → ∀ d, test (ComplexNumber.conj d) = test d) (d : C) :
    test (s.number d) = test d := by
  cases h : s.conjugates with
  | true => rw [s.number_conjugates h, htest h]
  | false => rw [s.number_keeps h]

end Number

section Value

open MvPolynomial (coeff rename)

noncomputable section

theorem monomial_length (m : Monomial) : (s.monomial m).length = m.length := by
  rw [monomial, List.length_map, List.length_range]

theorem exponents_monomial {m : Monomial} (hm : m.length = n) :
    (s.monomial m).exponents = m.exponents.mapDomain s.index := by
  ext j
  rw [Finsupp.mapDomain_equiv_apply, Monomial.exponents_apply, Monomial.exponents_apply,
    Monomial.exponent, monomial, List.getD_eq_getElem?_getD, List.getElem?_map, hm]
  rcases Nat.lt_or_ge j n with hj | hj
  · rw [List.getElem?_range hj]
    rfl
  · rw [List.getElem?_eq_none (by rwa [List.length_range]), s.index_symm_of_le hj,
      Monomial.exponent, List.getD_eq_default _ _ (hm ▸ hj)]
    rfl

theorem monomial_injective {m k : Monomial} (hm : m.length = n) (hk : k.length = n)
    (h : s.monomial m = s.monomial k) : m = k := by
  refine Monomial.exponents_injective (hm.trans hk.symm) ?_
  have hexponents := congrArg Monomial.exponents h
  rw [s.exponents_monomial hm, s.exponents_monomial hk] at hexponents
  exact Finsupp.mapDomain_injective s.index.injective hexponents

/-- The automorphism of the polynomial ring. -/
def act : MvPolynomial ℕ C →+* MvPolynomial ℕ C :=
  (rename s.index : MvPolynomial ℕ C →ₐ[C] MvPolynomial ℕ C).toRingHom.comp
    (MvPolynomial.map s.number)

theorem act_apply (p : MvPolynomial ℕ C) :
    s.act p = rename s.index (MvPolynomial.map s.number p) := rfl

theorem act_monomial (e : ℕ →₀ ℕ) (c : C) :
    s.act (MvPolynomial.monomial e c) =
      MvPolynomial.monomial (e.mapDomain s.index) (s.number c) := by
  rw [act_apply, MvPolynomial.map_monomial, MvPolynomial.rename_monomial]

theorem act_C (c : C) : s.act (MvPolynomial.C c) = MvPolynomial.C (s.number c) := by
  rw [act_apply, MvPolynomial.map_C, MvPolynomial.rename_C]

theorem act_X (k : ℕ) : s.act (MvPolynomial.X k : MvPolynomial ℕ C) = .X (s.index k) := by
  rw [act_apply, MvPolynomial.map_X, MvPolynomial.rename_X]

theorem act_smul (c : C) (p : MvPolynomial ℕ C) : s.act (c • p) = s.number c • s.act p := by
  rw [MvPolynomial.smul_eq_C_mul, map_mul, act_C, MvPolynomial.smul_eq_C_mul]

theorem coeff_act (e : ℕ →₀ ℕ) (p : MvPolynomial ℕ C) :
    coeff (e.mapDomain s.index) (s.act p) = s.number (coeff e p) := by
  rw [act_apply, MvPolynomial.coeff_rename_mapDomain _ s.index.injective, MvPolynomial.coeff_map]

theorem act_injective : Function.Injective (s.act : MvPolynomial ℕ C → MvPolynomial ℕ C) := by
  have hnumber : Function.Injective (s.number : C →+* C) := (s.number : C →+* C).injective
  exact (MvPolynomial.rename_injective _ s.index.injective).comp
    (MvPolynomial.map_injective _ hnumber)

/-- The members of a sequence at the places of their variables. -/
def sequence (Y : Sequence C) : Sequence C := fun k => s.act (Y (s.index.symm k))

theorem sequence_index (Y : Sequence C) (k : ℕ) : s.sequence Y (s.index k) = s.act (Y k) := by
  rw [sequence, Equiv.symm_apply_apply]

theorem sequence_add (Y Z : Sequence C) : s.sequence (Y + Z) = s.sequence Y + s.sequence Z := by
  funext k
  exact map_add s.act _ _

theorem sequence_sub (Y Z : Sequence C) : s.sequence (Y - Z) = s.sequence Y - s.sequence Z := by
  funext k
  exact map_sub s.act _ _

theorem sequence_smul (c : C) (Y : Sequence C) :
    s.sequence (c • Y) = s.number c • s.sequence Y := by
  funext k
  exact s.act_smul c _

theorem sequence_zero : s.sequence (0 : Sequence C) = 0 := by
  funext k
  exact map_zero s.act

theorem sequence_eq_zero_iff {Y : Sequence C} : s.sequence Y = 0 ↔ Y = 0 := by
  refine ⟨fun h => funext fun k => s.act_injective ?_, fun h => h ▸ s.sequence_zero⟩
  rw [← sequence_index, h, Pi.zero_apply, Pi.zero_apply, map_zero]

theorem along_sequence (w : Sequence C) (p : MvPolynomial ℕ C) :
    along (s.sequence w) (s.act p) = s.act (along w p) := by
  induction p using MvPolynomial.induction_on with
  | C c =>
    rw [act_C, MvPolynomial.derivation_C, MvPolynomial.derivation_C, map_zero]
  | add p q hp hq => rw [map_add, map_add, map_add, map_add, hp, hq]
  | mul_X p k hp =>
    rw [map_mul, act_X, Derivation.leibniz, Derivation.leibniz, along_X, along_X, hp,
      sequence_index, map_add, smul_eq_mul, smul_eq_mul, smul_eq_mul, smul_eq_mul, map_mul, map_mul,
      act_X]

theorem derive_sequence (w f : Sequence C) :
    derive (s.sequence w) (s.sequence f) = s.sequence (derive w f) := by
  funext k
  exact s.along_sequence w _

theorem part_sequence (d : ℕ) (f : Sequence C) :
    part d (s.sequence f) = s.sequence (part d f) := by
  funext k
  ext e
  obtain ⟨e, rfl⟩ := Finsupp.mapDomain_surjective s.index.surjective e
  rw [part_apply, sequence, sequence, part_apply, coeff_act, MvPolynomial.coeff_homogeneousComponent,
    MvPolynomial.coeff_homogeneousComponent, coeff_act, Finsupp.degree_mapDomain]
  split
  · rfl
  · rw [map_zero]

theorem termsValue_map_term {ts : List (Term C)} (hts : ∀ t ∈ ts, t.1.length = n) :
    termsValue (ts.map s.term) = s.act (termsValue ts) := by
  induction ts with
  | nil => exact (map_zero s.act).symm
  | cons t ts ih =>
    obtain ⟨ht, hts⟩ := List.forall_mem_cons.1 hts
    rw [List.map_cons, termsValue_cons, termsValue_cons, ih hts, map_add, termValue, termValue,
      act_monomial, term, s.exponents_monomial ht]

theorem canonical_poly {p : Poly C} (hp : p.Canonical n) : (s.poly p).Canonical n := by
  refine .foldl_terms (hp.nvars_eq ▸ .zero p.nvars) fun t ht => ?_
  obtain ⟨u, hu, rfl⟩ := List.mem_map.1 ht
  exact (s.monomial_length u.1).trans (hp.terms.length u hu)

theorem value_poly {p : Poly C} (hp : p.Canonical n) : (s.poly p).value = s.act p.value := by
  rw [poly, Poly.value_foldl_addTerm, Poly.value_zero, zero_add,
    s.termsValue_map_term hp.terms.length]
  rfl

theorem terms_poly_perm {p : Poly C} (hp : p.Canonical n) :
    (s.poly p).terms.Perm (p.terms.map s.term) := by
  have hterms : (s.poly p).terms.Perm (p.terms.map s.term ++ (Poly.zero p.nvars).terms) := by
    refine Poly.foldl_addTerm_perm (fun t ht => ?_) ?_ fun t _ u hu => by cases hu
    · obtain ⟨u, hu, rfl⟩ := List.mem_map.1 ht
      exact (s.isZero_number u.2).trans (hp.terms.nonzero u hu)
    · rw [List.map_map]
      refine List.Nodup.map_on (fun t ht u hu heq => ?_)
        (List.Nodup.of_map _ hp.terms.sorted.nodup_monomials)
      have hmonomial := s.monomial_injective (hp.terms.length t ht) (hp.terms.length u hu) heq
      exact List.inj_on_of_nodup_map hp.terms.sorted.nodup_monomials ht hu hmonomial
  rwa [Poly.zero_terms, List.append_nil] at hterms

theorem component_tuple {f : Tuple C} (hf : f.Shaped n n) (k : ℕ) :
    (s.tuple f).component k = s.poly (f.component (s.index.symm k)) := by
  rw [Tuple.component, tuple, List.getD_eq_getElem?_getD, List.getElem?_map, hf.size_eq]
  rcases Nat.lt_or_ge k n with hk | hk
  · rw [List.getElem?_range hk]
    rfl
  · rw [List.getElem?_eq_none (by rwa [List.length_range]), s.index_symm_of_le hk,
      Tuple.component_of_size_le (hf.size_eq.trans_le hk)]
    rfl

theorem shaped_tuple {f : Tuple C} (hf : f.Shaped n n) : (s.tuple f).Shaped n n := by
  refine .of_component ?_ hf.nvars_eq fun k _ => ?_
  · rw [Tuple.size, tuple, List.length_map, List.length_range, hf.size_eq]
  · rw [s.component_tuple hf]
    exact s.canonical_poly (hf.component _)

theorem value_tuple {f : Tuple C} (hf : f.Shaped n n) :
    (s.tuple f).value = s.sequence f.value := by
  funext k
  rw [Tuple.value_eq, s.component_tuple hf, s.value_poly (hf.component _), sequence, Tuple.value_eq]

/-- A tuple is the image of another if its value is. -/
theorem tuple_eq {f g : Tuple C} (hf : f.Shaped n n) (hg : g.Shaped n n)
    (h : s.sequence f.value = g.value) : s.tuple f = g :=
  Tuple.value_injective (s.shaped_tuple hf) hg ((s.value_tuple hf).trans h)

end

end Value

end Symmetry

end LieNormalForm
