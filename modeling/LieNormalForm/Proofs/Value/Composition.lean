import LieNormalForm.Proofs.Value.Evaluation
import LieNormalForm.Proofs.Value.Tuple

/-!
# Substitution as composition

Over a field the polynomial that a substitution expands is the composition with the images. Its
values are the values of the polynomial at the values of the images, substitution of fixed images
respects sums and products, the coordinate functions change nothing, and one substitution after
another is the substitution of composed images.
-/

open MvPolynomial (aeval)

noncomputable section

namespace LieNormalForm

variable {C W : Type} [Weight W] [ExactField C W]

namespace Poly

variable {n : ℕ} {p : Poly C}

theorem aeval_congr {A : Type} [CommRing A] [Algebra C A] (hp : p.Canonical n) {x y : ℕ → A}
    (h : ∀ k < n, x k = y k) : aeval x p.value = aeval y p.value :=
  MvPolynomial.eval₂Hom_congr' rfl (fun k hk _ => h k (lt_of_mem_vars_value hp hk)) rfl

theorem evaluate_eq_aeval (p : Poly C) (a : List C) : p.evaluate a = aeval (pointAt a) p.value :=
  evaluate_eq_eval p a

end Poly

namespace Tuple

variable {g h k : Tuple C} {p q p' q' r : Poly C}

/-- The coordinates of the point that a tuple takes a point to. -/
def values (g : Tuple C) (a : List C) : List C := g.components.map fun u => u.evaluate a

theorem pointAt_values (g : Tuple C) (a : List C) {j : ℕ} (hj : j < g.size) :
    pointAt (g.values a) j = aeval (pointAt a) (g.value j) := by
  have hlength : j < (g.values a).length := by rwa [values, List.length_map]
  rw [pointAt, List.getD_eq_getElem _ _ hlength, value_eq, component_of_lt hj,
    ← Poly.evaluate_eq_aeval]
  exact List.getElem_map _

/-- The substitution of `g` into `p` gives `p'`, the composition. -/
structure Composes (g : Tuple C) (p p' : Poly C) : Prop where
  substitute_eq : p.substitute g.components = .ok p'
  canonical : p'.Canonical g.nvars
  value_eq : p'.value = aeval g.value p.value

theorem exists_composes (hg : g.WellFormed) (hsize : g.size ≠ 0) (hp : p.Canonical g.size) :
    ∃ p', g.Composes p p' := by
  have hne : g.components = [] → g.nvars = 0 := fun hnil => absurd (congrArg List.length hnil) hsize
  obtain ⟨q, hok, hq, hvalue⟩ := Poly.substituteWithin_value hp hg.canonical hne none
  exact ⟨q, hok, hq, hvalue⟩

theorem composes_of_value (hg : g.WellFormed) (hsize : g.size ≠ 0) (hp : p.Canonical g.size)
    (hp' : p'.Canonical g.nvars) (h : p'.value = aeval g.value p.value) : g.Composes p p' := by
  obtain ⟨q, hq⟩ := exists_composes hg hsize hp
  obtain rfl : q = p' := Poly.value_injective hq.canonical hp' (hq.value_eq.trans h.symm)
  exact hq

theorem Composes.evaluate (h : g.Composes p p') (hp : p.Canonical g.size) (a : List C) :
    p'.evaluate a = p.evaluate (g.values a) := by
  have hcongr := Poly.aeval_congr hp fun j hj => pointAt_values g a hj
  rw [Poly.evaluate_eq_aeval, Poly.evaluate_eq_aeval, hcongr, h.value_eq]
  exact MvPolynomial.comp_aeval_apply g.value (aeval (pointAt a)) p.value

/-- Substituting `g` respects the operations on two polynomials. -/
structure Respects (g : Tuple C) (p q p' q' : Poly C) (c : C) (e : ℕ) : Prop where
  constant : (Poly.constant g.size c).substitute g.components = .ok (Poly.constant g.nvars c)
  add : (p + q).substitute g.components = .ok (p' + q')
  sub : (p - q).substitute g.components = .ok (p' - q')
  neg : (-p).substitute g.components = .ok (-p')
  scale : (p.scale c).substitute g.components = .ok (p'.scale c)
  mul : (p * q).substitute g.components = .ok (p' * q')
  pow : (p.pow e).substitute g.components = .ok (p'.pow e)

theorem Composes.respects (hg : g.WellFormed) (hsize : g.size ≠ 0) (hp : p.Canonical g.size)
    (hq : q.Canonical g.size) (hp' : g.Composes p p') (hq' : g.Composes q q') (c : C) (e : ℕ) :
    g.Respects p q p' q' c e := by
  have hok : ∀ {r r' : Poly C}, r.Canonical g.size → r'.Canonical g.nvars →
      r'.value = aeval g.value r.value → r.substitute g.components = .ok r' :=
    fun hr hr' h => (composes_of_value hg hsize hr hr' h).substitute_eq
  have hcp := hp'.canonical
  have hcq := hq'.canonical
  constructor
  case constant =>
    refine hok (.constant _ c) (.constant _ c) ?_
    rw [Poly.value_constant, Poly.value_constant, MvPolynomial.aeval_C]
    rfl
  case add =>
    refine hok (hp.add hq) (hcp.add hcq) ?_
    rw [Poly.value_add, Poly.value_add, map_add, hp'.value_eq, hq'.value_eq]
  case sub =>
    refine hok (hp.sub hq) (hcp.sub hcq) ?_
    rw [Poly.value_sub, Poly.value_sub, map_sub, hp'.value_eq, hq'.value_eq]
  case neg =>
    refine hok hp.neg hcp.neg ?_
    rw [Poly.value_neg, Poly.value_neg, map_neg, hp'.value_eq]
  case scale =>
    refine hok (hp.scale c) (hcp.scale c) ?_
    rw [Poly.value_scale, Poly.value_scale, map_smul, hp'.value_eq]
  case mul =>
    refine hok (hp.mul hq) (hcp.mul hcq) ?_
    rw [Poly.value_mul hp hq, Poly.value_mul hcp hcq, map_mul, hp'.value_eq, hq'.value_eq]
  case pow =>
    refine hok (hp.pow e) (hcp.pow e) ?_
    rw [Poly.value_pow hp, Poly.value_pow hcp, map_pow, hp'.value_eq]

theorem composes_identity {n : ℕ} (hn : n ≠ 0) (hp : p.Canonical n) :
    (identity n).Composes p p := by
  refine composes_of_value (Shaped.identity n).wellFormed ?_ ?_ hp ?_
  · rwa [identity_size]
  · rwa [identity_size]
  · rw [Poly.aeval_congr hp fun j hj => value_identity hj, MvPolynomial.aeval_X_left_apply]

theorem Composes.trans (hg : g.WellFormed) (hsize : g.size ≠ 0) (hh : h.WellFormed)
    (hmatch : h.size = g.nvars) (hne : h.size ≠ 0) (hp : p.Canonical g.size) (hp' : g.Composes p p')
    (hr : h.Composes p' r) :
    ∃ k, g.substitute h = .ok k ∧ k.Shaped g.size h.nvars ∧ k.Composes p r := by
  obtain ⟨k, hok, hk, hvalue⟩ :=
    substituteWithin_value hg (hh.shaped hmatch rfl) (fun hzero => absurd (hmatch.trans hzero) hne)
      none
  refine ⟨k, hok, hk, composes_of_value hk.wellFormed (hk.size_eq.symm ▸ hsize)
    (hk.size_eq.symm ▸ hp) (hk.nvars_eq.symm ▸ hr.canonical) ?_⟩
  -- both ways give `p` the images that `h` makes of the images in `g`
  have hcompose : k.value = fun j => aeval h.value (g.value j) := funext hvalue
  rw [hr.value_eq, hp'.value_eq, hcompose]
  exact MvPolynomial.comp_aeval_apply g.value (aeval h.value) p.value

end Tuple

end LieNormalForm

end
