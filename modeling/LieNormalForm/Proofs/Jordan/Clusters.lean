import LieNormalForm.Proofs.Complex
import LieNormalForm.Jordan.Cluster

/-!
# Clusters of separate eigenvalues

If different eigenvalues are out of each other's reach, and equal ones within it, clustering finds
the different eigenvalues with their multiplicities: without rounding, the mean of equal numbers is
this number.
-/

namespace LieNormalForm

namespace Cluster

open Classical

variable {C R : Type} [ExactReal R] [ExactComplex C R]

/-- The clusters are the different eigenvalues, each with its multiplicity. -/
structure Exact (spectrum : List C) (ks : List (Cluster C)) : Prop where
  nodup : (ks.map center).Nodup
  count : ∀ k ∈ ks, k.count = spectrum.count k.center
  mem : ∀ l, l ∈ ks.map center ↔ l ∈ spectrum

theorem absorb_center [CharZero C] (k : Cluster C) : k.absorb k.center = ⟨k.center, k.count + 1⟩ := by
  have hne : ((k.count + 1 : ℕ) : C) ≠ 0 := Nat.cast_ne_zero.2 k.count.succ_ne_zero
  have hmean : k.center * k.count + k.center = k.center * ((k.count + 1 : ℕ) : C) := by
    push_cast
    ring
  rw [absorb, ExactField.divNat_eq, ExactField.mulNat_eq, hmean, mul_div_cancel_right₀ _ hne]

section Step

variable {radius : R} {l : C} {ks : List (Cluster C)}
  (hreach : ∀ k ∈ ks, RealNumber.le (Normed.norm (k.center - l)) radius = true ↔ k.center = l)
include hreach

theorem addTo_of_not_mem (hl : l ∉ ks.map center) : addTo radius l ks = ks ++ [⟨l, 1⟩] := by
  induction ks with
  | nil => rfl
  | cons k ks ih =>
    rw [List.forall_mem_cons] at hreach
    rw [List.map_cons, List.mem_cons, not_or] at hl
    rw [addTo, if_neg fun h => hl.1 (hreach.1.1 h).symm, ih hreach.2 hl.2, List.cons_append]

theorem addTo_of_mem [CharZero C] (hl : l ∈ ks.map center) :
    ∃ before k after, ks = before ++ k :: after ∧ k.center = l ∧
      addTo radius l ks = before ++ ⟨l, k.count + 1⟩ :: after := by
  induction ks with
  | nil => cases hl
  | cons k ks ih =>
    rw [List.forall_mem_cons] at hreach
    by_cases hk : k.center = l
    · refine ⟨[], k, ks, rfl, hk, ?_⟩
      rw [addTo, if_pos (hreach.1.2 hk), ← hk, absorb_center, List.nil_append]
    · obtain ⟨before, k', after, hks, hk', hadd⟩ :=
        ih hreach.2 ((List.mem_cons.1 hl).resolve_left (Ne.symm hk))
      refine ⟨k :: before, k', after, by rw [hks, List.cons_append], hk', ?_⟩
      rw [addTo, if_neg fun h => hk (hreach.1.1 h), hadd, List.cons_append]

theorem Exact.addTo [CharZero C] {spectrum : List C} (h : Exact spectrum ks) :
    Exact (spectrum ++ [l]) (addTo radius l ks) := by
  have hother : ∀ m : C, m ≠ l → (spectrum ++ [l]).count m = spectrum.count m := by
    intro m hm
    rw [List.count_append, List.count_singleton, if_neg (by simpa using hm.symm), Nat.add_zero]
  have hself : (spectrum ++ [l]).count l = spectrum.count l + 1 := by
    rw [List.count_append, List.count_singleton_self]
  by_cases hl : l ∈ ks.map center
  · obtain ⟨before, k, after, rfl, hk, hadd⟩ := addTo_of_mem hreach hl
    have hcenters : (before ++ ⟨l, k.count + 1⟩ :: after).map center =
        (before ++ k :: after).map center := by
      rw [List.map_append, List.map_append, List.map_cons, List.map_cons, hk]
    have hnodup := h.nodup
    rw [List.map_append, List.map_cons, hk] at hnodup
    have hfresh := List.nodup_middle.1 hnodup
    rw [List.nodup_cons, ← List.map_append] at hfresh
    rw [hadd]
    refine ⟨hcenters ▸ h.nodup, fun k' hk' => ?_, fun m => ?_⟩
    · have hold : k' = ⟨l, k.count + 1⟩ ∨ k' ∈ before ++ after := by
        simp only [List.mem_append, List.mem_cons] at hk' ⊢
        tauto
      rcases hold with rfl | hold
      · rw [hself, ← hk, ← h.count k (by simp)]
      · rw [hother _ fun heq => hfresh.1 (heq ▸ List.mem_map_of_mem hold)]
        refine h.count k' ?_
        simp only [List.mem_append, List.mem_cons] at hold ⊢
        tauto
    · rw [hcenters, h.mem, List.mem_append, List.mem_singleton]
      refine ⟨.inl, ?_⟩
      rintro (hm | rfl)
      · exact hm
      · exact (h.mem m).1 hl
  · have hnew : l ∉ spectrum := fun hmem => hl ((h.mem l).2 hmem)
    rw [addTo_of_not_mem hreach hl]
    refine ⟨?_, fun k hk => ?_, fun m => ?_⟩
    · rw [List.map_append, List.map_singleton]
      refine List.nodup_append.2 ⟨h.nodup, List.nodup_singleton _, fun a ha b hb hab => hl ?_⟩
      rwa [hab, List.mem_singleton.1 hb] at ha
    · rcases List.mem_append.1 hk with hk | hk
      · rw [hother _ fun heq => hl (heq ▸ List.mem_map_of_mem hk)]
        exact h.count k hk
      · rw [List.mem_singleton.1 hk, hself, List.count_eq_zero.2 hnew]
    · simp [← h.mem m]

end Step

theorem exact_ofSpectrum [CharZero C] {radius : R} {spectrum : List C}
    (hreach : ∀ l ∈ spectrum, ∀ m ∈ spectrum,
      RealNumber.le (Normed.norm (l - m)) radius = true ↔ l = m) :
    Exact spectrum (ofSpectrum radius spectrum) := by
  have hfold : ∀ (rest done : List C) (ks : List (Cluster C)), Exact done ks →
      (∀ l ∈ done ++ rest, ∀ m ∈ done ++ rest,
        RealNumber.le (Normed.norm (l - m)) radius = true ↔ l = m) →
      Exact (done ++ rest) (rest.foldl (fun ks l => addTo radius l ks) ks) := by
    intro rest
    induction rest with
    | nil =>
      intro done ks h _
      rwa [List.append_nil]
    | cons l rest ih =>
      intro done ks h hreach
      have hstep := h.addTo fun k hk =>
        hreach k.center (List.mem_append_left _ ((h.mem _).1 (List.mem_map_of_mem hk))) l (by simp)
      have hrest := ih _ _ hstep (by simpa using hreach)
      simpa using hrest
  exact hfold spectrum [] [] ⟨List.nodup_nil, by simp, by simp⟩ hreach

end Cluster

end LieNormalForm
