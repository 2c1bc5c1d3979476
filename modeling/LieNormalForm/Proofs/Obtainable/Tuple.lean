import Mathlib.Data.List.Forall2
import LieNormalForm.Stored.Read
import LieNormalForm.Tuple.Linear
import LieNormalForm.Tuple.Text
import LieNormalForm.Double.Complex
import LieNormalForm.Proofs.Canonical.Tuple

/-!
# Tuples that can be obtained

A tuple is uniform if its components have as many variables as the tuple. Constructors and stored
values give uniform tuples, and operations keep them uniform. The one exception is substitution,
which takes the number of variables from the tuple of images and leaves every check to the
components: a tuple without components accepts any number of images, and components without
variables stay without them whatever the variables of a tuple of no images are.
-/

namespace LieNormalForm

variable {C W : Type} [Coefficient C W]

namespace Tuple

variable {f g h : Tuple C}

/-- Every component has as many variables as the tuple. -/
def Uniform (f : Tuple C) : Prop := ∀ p ∈ f.components, p.nvars = f.nvars

namespace Uniform

theorem of_shaped {len n : ℕ} (h : f.Shaped len n) : f.Uniform :=
  fun p hp => (h.canonical p hp).nvars_eq.trans h.nvars_eq.symm

theorem ofComponents {n : ℕ} {ps : List (Poly C)} (h : ofComponents n ps = .ok f) : f.Uniform := by
  unfold Tuple.ofComponents at h
  split at h
  · cases h
  · rename_i hnone
    cases h
    intro p hp
    simpa using List.find?_eq_none.1 hnone p hp

theorem zeros (len n : ℕ) : (zeros len n : Tuple C).Uniform :=
  fun _ hp => congrArg Poly.nvars (List.eq_of_mem_replicate hp)

theorem linear (m : CoeffMatrix C) : (linear m).Uniform := by
  intro p hp
  obtain ⟨i, _, rfl⟩ := List.mem_map.1 hp
  exact Poly.foldl_add_nvars _ _ _

theorem single (len k : ℕ) (p : Poly C) : (single len k p).Uniform := by
  intro q hq
  obtain ⟨j, hj⟩ := List.mem_iff_getElem?.1 hq
  rw [Tuple.single, modify, List.getElem?_modify] at hj
  obtain ⟨r, hr, rfl⟩ := Option.map_eq_some_iff.1 hj
  have hzero : r.nvars = p.nvars := Uniform.zeros len p.nvars r (List.mem_of_getElem? hr)
  split
  · rfl
  · exact hzero

theorem map (h : f.Uniform) {op : Poly C → Poly C} (hop : ∀ p, (op p).nvars = p.nvars) :
    (f.map op).Uniform := by
  intro q hq
  obtain ⟨p, hp, rfl⟩ := List.mem_map.1 hq
  exact (hop p).trans (h p hp)

theorem zip (h : f.Uniform) {op : Poly C → Poly C → Poly C} (hop : ∀ p q, (op p q).nvars = p.nvars)
    (qs : List (Poly C)) : (⟨f.nvars, zipComponents op f.components qs⟩ : Tuple C).Uniform :=
  zipComponents_forall (Q := fun _ => True) (fun p q hp _ => (hop p q).trans hp) h
    fun _ _ => trivial

theorem applyMatrix (f : Tuple C) (m : CoeffMatrix C) : (f.applyMatrix m).Uniform := by
  intro p hp
  obtain ⟨i, _, rfl⟩ := List.mem_map.1 hp
  refine Poly.foldl_nvars (fun row pj => ?_) _ _
  split <;> rfl

theorem contract (J : Jacobian C) (w : Tuple C) : (J.contract w).Uniform := by
  intro p hp
  obtain ⟨row, _, rfl⟩ := List.mem_map.1 hp
  refine Poly.foldl_nvars (fun sum pq => ?_) _ _
  unfold Jacobian.addProduct
  split <;> rfl

theorem head_nvars (h : g.Uniform) (hg : g.size ≠ 0 ∨ g.nvars = 0) :
    (g.components.head?.map Poly.nvars).getD 0 = g.nvars := by
  cases hcomponents : g.components with
  | nil =>
    have hsize : g.size = 0 := congrArg List.length hcomponents
    exact (hg.resolve_left fun hne => hne hsize).symm
  | cons p ps => exact h p (hcomponents ▸ List.mem_cons_self ..)

theorem substituteWithin_refuses (hf : f.Uniform) (hsize : g.size ≠ f.nvars) (hne : f.size ≠ 0)
    (limit : Option ℕ) :
    f.substituteWithin g limit = .error (.shape .substitutionImages f.nvars g.size) := by
  obtain ⟨p, ps, hcomponents⟩ := List.exists_cons_of_ne_nil fun hnil =>
    hne (congrArg List.length hnil)
  have hp : p.nvars = f.nvars := hf p (hcomponents ▸ List.mem_cons_self ..)
  have herror : p.substituteWithin g.components limit =
      .error (.shape .substitutionImages p.nvars g.size) :=
    Poly.substituteWithin_count (hp.symm ▸ hsize)
  rw [substituteWithin, hcomponents, List.mapM_cons, herror, hp]
  rfl

theorem substituteWithin_accepts (hf : f.Uniform) (hg : g.Uniform)
    (hfit : g.size = f.nvars ∨ f.size = 0) (limit : Option ℕ) :
    ∃ h, f.substituteWithin g limit = .ok h ∧ h.size = f.size ∧ h.nvars = g.nvars ∧
      ∀ p ∈ h.components, p.nvars = (g.components.head?.map Poly.nvars).getD 0 := by
  have hcomponent : ∀ p ∈ f.components, ∃ q, p.substituteWithin g.components limit = .ok q ∧
      q.nvars = (g.components.head?.map Poly.nvars).getD 0 := by
    intro p hp
    have hsize : g.size = f.nvars := by
      refine hfit.resolve_right fun hempty => ?_
      rw [List.length_eq_zero_iff.1 hempty] at hp
      cases hp
    have hcount : g.components.length = p.nvars := hsize.trans (hf p hp).symm
    have himages : ∀ q ∈ g.components,
        q.nvars = (g.components.head?.map Poly.nvars).getD 0 := by
      intro q hq
      rw [hg.head_nvars (.inl (Nat.ne_of_gt (List.length_pos_of_mem hq)))]
      exact hg q hq
    refine ⟨_, Poly.substituteWithin_eq hcount rfl himages, ?_⟩
    exact Poly.foldl_add_nvars _ _ _
  obtain ⟨qs, hqs, hall⟩ := exists_mapM_eq_ok hcomponent
  refine ⟨⟨g.nvars, qs⟩, ?_, hall.length_eq.symm, rfl, fun q hq => ?_⟩
  · simp only [substituteWithin, hqs]
  · obtain ⟨k, hk, rfl⟩ := List.mem_iff_getElem.1 hq
    exact hall.get (hall.length_eq ▸ hk) hk

/-- A composition is uniform unless there are components and no images to give them variables. -/
theorem substituteWithin_iff (hf : f.Uniform) (hg : g.Uniform) {limit : Option ℕ}
    (hok : f.substituteWithin g limit = .ok h) :
    h.Uniform ↔ f.size = 0 ∨ g.size ≠ 0 ∨ g.nvars = 0 := by
  have hfit : g.size = f.nvars ∨ f.size = 0 := by
    by_contra hmismatch
    obtain ⟨hsize, hne⟩ := not_or.1 hmismatch
    rw [hf.substituteWithin_refuses hsize hne] at hok
    cases hok
  obtain ⟨k, hk, hsize, hnvars, hall⟩ := hf.substituteWithin_accepts hg hfit limit
  obtain rfl : k = h := Except.ok.inj (hk.symm.trans hok)
  constructor
  · intro huniform
    by_contra hnone
    obtain ⟨hne, himages⟩ := not_or.1 hnone
    obtain ⟨hempty, hvars⟩ := not_or.1 himages
    obtain ⟨p, ps, hcomponents⟩ := List.exists_cons_of_ne_nil fun hnil =>
      hne (hsize ▸ congrArg List.length hnil)
    have hp : p ∈ k.components := hcomponents ▸ List.mem_cons_self ..
    -- no image, hence no variable for a component to have
    have hzero := hall p hp
    rw [List.length_eq_zero_iff.1 (not_not.1 hempty)] at hzero
    exact hvars (hnvars ▸ (huniform p hp).symm.trans hzero)
  · rintro (hempty | hg') p hp
    · rw [List.length_eq_zero_iff.1 (hsize.trans hempty)] at hp
      cases hp
    · rw [hall p hp, hg.head_nvars hg', hnvars]

end Uniform

end Tuple

namespace Tuple

variable {C R : Type} [RealNumber R] [ComplexNumber C R]

theorem Uniform.read {v : Stored R} {f : Tuple C} (h : Stored.readTuple v = .ok f) :
    f.Uniform := by
  unfold Stored.readTuple at h
  split at h
  · cases h
  rename_i form _
  cases hform : form.toTuple with
  | error cause =>
    rw [hform] at h
    cases h
  | ok g =>
    rw [hform] at h
    cases h
    exact .ofComponents hform

/-- Everything that constructors, stored values and operations give, where a substitution into
components needs images if these have variables. -/
inductive Obtainable : Tuple C → Prop
  | ofComponents {n : ℕ} {ps : List (Poly C)} {f : Tuple C} :
      ofComponents n ps = .ok f → Obtainable f
  | read {v : Stored R} {f : Tuple C} : Stored.readTuple v = .ok f → Obtainable f
  | zeros (len n : ℕ) : Obtainable (zeros len n)
  | identity (n : ℕ) : Obtainable (identity n)
  | linear (m : CoeffMatrix C) : Obtainable (linear m)
  | single (len k : ℕ) (p : Poly C) : Obtainable (single len k p)
  | add {f g : Tuple C} : Obtainable f → Obtainable g → Obtainable (f + g)
  | sub {f g : Tuple C} : Obtainable f → Obtainable g → Obtainable (f - g)
  | neg {f : Tuple C} : Obtainable f → Obtainable (-f)
  | scale {f : Tuple C} (c : C) : Obtainable f → Obtainable (f.scale c)
  | homogeneousPart {f : Tuple C} (d : ℕ) : Obtainable f → Obtainable (f.homogeneousPart d)
  | truncate {f : Tuple C} (d : ℕ) : Obtainable f → Obtainable (f.truncate d)
  | chop {f : Tuple C} (tolerance : R) : Obtainable f → Obtainable (f.chop tolerance)
  | applyMatrix {f : Tuple C} (m : CoeffMatrix C) : Obtainable f → Obtainable (f.applyMatrix m)
  | directionalDerivative {f w : Tuple C} :
      Obtainable f → Obtainable w → Obtainable (f.directionalDerivative w)
  | substituteWithin {f g h : Tuple C} {limit : Option ℕ} :
      Obtainable f → Obtainable g → f.size = 0 ∨ g.size ≠ 0 ∨ g.nvars = 0 →
      f.substituteWithin g limit = .ok h → Obtainable h

theorem Obtainable.uniform {f : Tuple C} (h : f.Obtainable) : f.Uniform := by
  induction h with
  | ofComponents h => exact .ofComponents h
  | read h => exact .read h
  | zeros len n => exact .zeros len n
  | identity n => exact .of_shaped (.identity n)
  | linear m => exact .linear m
  | single len k p => exact .single len k p
  | add _ _ hf _ => exact hf.zip Poly.add_nvars _
  | sub _ _ hf _ => exact hf.zip Poly.sub_nvars _
  | neg _ hf => exact hf.map fun _ => rfl
  | scale c _ hf => exact hf.map fun p => p.scale_nvars c
  | homogeneousPart d _ hf => exact hf.map fun _ => rfl
  | truncate d _ hf => exact hf.map fun _ => rfl
  | chop tolerance _ hf => exact hf.map fun _ => rfl
  | applyMatrix m _ _ => exact .applyMatrix _ m
  | directionalDerivative _ _ _ _ => exact .contract _ _
  | substituteWithin _ _ hshape hok hf hg => exact (hf.substituteWithin_iff hg hok).2 hshape

/-- Tuples that can be obtained are uniform. A substitution into one is refused exactly when there
are components and the number of images is not their number of variables. What it gives has the
variables of the images, and so have its components, unless they get none from a lack of images. -/
theorem shape_of_obtainable {f g : Tuple C} (hf : f.Obtainable) (hg : g.Obtainable)
    (limit : Option ℕ) :
    f.Uniform ∧
      ((∃ e, f.substituteWithin g limit = .error e) ↔ g.size ≠ f.nvars ∧ f.size ≠ 0) ∧
      (∀ e, f.substituteWithin g limit = .error e →
        e = .shape .substitutionImages f.nvars g.size) ∧
      ∀ h, f.substituteWithin g limit = .ok h →
        h.size = f.size ∧ h.nvars = g.nvars ∧
          (h.Uniform ↔ f.size = 0 ∨ g.size ≠ 0 ∨ g.nvars = 0) := by
  by_cases hfit : g.size = f.nvars ∨ f.size = 0
  · obtain ⟨k, hk, hsize, hnvars, _⟩ :=
      hf.uniform.substituteWithin_accepts hg.uniform hfit limit
    have hnone : ¬∃ e, f.substituteWithin g limit = .error e := by
      rintro ⟨e, he⟩
      cases hk.symm.trans he
    have hmatch : ¬(g.size ≠ f.nvars ∧ f.size ≠ 0) :=
      fun hmismatch => hfit.elim hmismatch.1 hmismatch.2
    refine ⟨hf.uniform, ⟨fun h => absurd h hnone, fun h => absurd h hmatch⟩,
      fun e he => absurd ⟨e, he⟩ hnone, fun h hh => ?_⟩
    obtain rfl : k = h := Except.ok.inj (hk.symm.trans hh)
    exact ⟨hsize, hnvars, hf.uniform.substituteWithin_iff hg.uniform hk⟩
  · obtain ⟨hsize, hne⟩ := not_or.1 hfit
    have herror := hf.uniform.substituteWithin_refuses hsize hne limit
    refine ⟨hf.uniform, ⟨fun _ => ⟨hsize, hne⟩, fun _ => ⟨_, herror⟩⟩, fun e he => ?_,
      fun h hh => ?_⟩
    · exact (Except.error.inj (herror.symm.trans he)).symm
    · cases herror.symm.trans hh

theorem shape_of_obtainable_product :
    let f : Tuple FloatComplex := single 2 1 (Poly.coordinate 2 0 * Poly.coordinate 2 1)
    let g : Tuple FloatComplex := identity 2 - zeros 2 2
    f.Obtainable ∧ g.Obtainable ∧ f.Uniform ∧
      ((∃ e, f.substituteWithin g (some 2) = .error e) ↔ g.size ≠ f.nvars ∧ f.size ≠ 0) ∧
      (∀ e, f.substituteWithin g (some 2) = .error e →
        e = .shape .substitutionImages f.nvars g.size) ∧
      ∀ h, f.substituteWithin g (some 2) = .ok h →
        h.size = f.size ∧ h.nvars = g.nvars ∧
          (h.Uniform ↔ f.size = 0 ∨ g.size ≠ 0 ∨ g.nvars = 0) := by
  intro f g
  have hf : f.Obtainable := .single 2 1 _
  have hg : g.Obtainable := .sub (.identity 2) (.zeros 2 2)
  exact ⟨hf, hg, shape_of_obtainable hf hg (some 2)⟩

/-- A constant keeps to no variables next to three, and no component asks for two images. -/
theorem substitute_without_images :
    let f : Tuple FloatComplex := ⟨0, [Poly.constant 0 1]⟩
    let g : Tuple FloatComplex := zeros 0 3
    let empty : Tuple FloatComplex := zeros 0 2
    f.Obtainable ∧ g.Obtainable ∧ g.size = f.nvars ∧
      (∃ h, f.substitute g = .ok h ∧ h.size = 1 ∧ h.nvars = 3 ∧ ∀ p ∈ h.components, p.nvars = 0) ∧
      empty.Obtainable ∧ (identity 3 : Tuple FloatComplex).size ≠ empty.nvars ∧
      empty.substitute (identity 3) = .ok ⟨3, []⟩ := by
  intro f g empty
  have hcomponents : ofComponents 0 [Poly.constant 0 1] = .ok f := rfl
  have hf : f.Obtainable := .ofComponents hcomponents
  have hg : g.Obtainable := .zeros 0 3
  exact ⟨hf, hg, rfl, hf.uniform.substituteWithin_accepts hg.uniform (.inl rfl) none, .zeros 0 2,
    by decide, rfl⟩

end Tuple

end LieNormalForm
