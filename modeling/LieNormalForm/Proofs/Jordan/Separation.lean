import LieNormalForm.Proofs.Jordan.Members
import LieNormalForm.Proofs.Reals

/-!
# Spectra that cluster by distance

Eigenvalues are compared with a centre that moves, not with each other. So close eigenvalues can
end in different clusters, and the clusters can depend on the order of the spectrum. They do
neither, whatever the order, for the spectra that are separated: nearness is transitive, and a mean
of near eigenvalues is near to no eigenvalue that all of them are far from.
-/

noncomputable section

namespace LieNormalForm

namespace Cluster

open Classical

/-- Two eigenvalues are not further apart than the radius. -/
def Near (radius : ℝ) (l m : ℂ) : Prop := ‖l - m‖ ≤ radius

def mean (g : List ℂ) : ℂ := g.sum / g.length

/-- No member of one group is near to a member of the other. -/
def Far (radius : ℝ) (g h : List ℂ) : Prop := ∀ l ∈ g, ∀ m ∈ h, ¬Near radius l m

/-- Near eigenvalues are in one cluster. -/
def Merges (radius : ℝ) (spectrum : List ℂ) : Prop :=
  (groups radius spectrum).Pairwise (Far radius)

/-- The spectra that cluster by distance. -/
structure Separated (radius : ℝ) (spectrum : List ℂ) : Prop where
  trans : ∀ k ∈ spectrum, ∀ l ∈ spectrum, ∀ m ∈ spectrum,
    Near radius k l → Near radius l m → Near radius k m
  apart : ∀ g, g.Subperm spectrum → g ≠ [] → (∀ l ∈ g, ∀ m ∈ g, Near radius l m) →
    ∀ k ∈ spectrum, (∀ l ∈ g, ¬Near radius l k) → ¬Near radius (mean g) k

/-- The groups are the classes of nearness. -/
structure Classes (radius : ℝ) (gs : List (List ℂ)) : Prop where
  near : ∀ g ∈ gs, ∀ l ∈ g, ∀ m ∈ g, Near radius l m
  far : gs.Pairwise (Far radius)

theorem Near.refl {radius : ℝ} (hradius : 0 ≤ radius) (l : ℂ) : Near radius l l := by
  rw [Near, sub_self, norm_zero]
  exact hradius

theorem Near.symm {radius : ℝ} {l m : ℂ} (h : Near radius l m) : Near radius m l := by
  rw [Near, norm_sub_rev]
  exact h

theorem Far.symm {radius : ℝ} {g h : List ℂ} (hfar : Far radius g h) : Far radius h g :=
  fun l hl m hm hlm => hfar m hm l hl hlm.symm

theorem Classes.far_others {radius : ℝ} {before after : List (List ℂ)} {g : List ℂ}
    (hc : Classes radius (before ++ g :: after)) : ∀ h ∈ before ++ after, Far radius g h :=
  (List.pairwise_cons.1 ((List.pairwise_middle Far.symm).1 hc.far)).1

section Mean

variable {radius : ℝ} {g h : List ℂ} {k : ℂ}

theorem norm_sum_sub_le (hg : ∀ l ∈ g, Near radius l k) :
    ‖g.sum - g.length * k‖ ≤ g.length * radius := by
  induction g with
  | nil => simp
  | cons l g ih =>
    obtain ⟨hl, hg⟩ := List.forall_mem_cons.1 hg
    have hsum : (l :: g).sum - (l :: g).length * k = (l - k) + (g.sum - g.length * k) := by
      rw [List.sum_cons, List.length_cons, Nat.cast_succ]
      ring
    calc ‖(l :: g).sum - (l :: g).length * k‖
        ≤ ‖l - k‖ + ‖g.sum - g.length * k‖ := hsum ▸ norm_add_le _ _
      _ ≤ radius + g.length * radius := add_le_add hl (ih hg)
      _ = (l :: g).length * radius := by
        rw [List.length_cons, Nat.cast_succ]
        ring

/-- A disc is convex: the mean of eigenvalues near to a number is near to it. -/
theorem near_mean (hne : g ≠ []) (hg : ∀ l ∈ g, Near radius l k) : Near radius (mean g) k := by
  have hpos : (0 : ℝ) < g.length := Nat.cast_pos.2 (List.length_pos_of_ne_nil hne)
  have hlength : (g.length : ℂ) ≠ 0 := Nat.cast_ne_zero.2 (List.length_pos_of_ne_nil hne).ne'
  have hmean : mean g - k = (g.sum - g.length * k) / g.length := by
    rw [mean, sub_div, mul_div_cancel_left₀ k hlength]
  rw [Near, hmean, norm_div, Complex.norm_natCast, div_le_iff₀ hpos, mul_comm radius]
  exact norm_sum_sub_le hg

theorem ofMembers_eq (g : List ℂ) : ofMembers g = ⟨mean g, g.length⟩ := by
  have hcenter : (ofMembers g).center = mean g := ofMembers_center g
  rw [← hcenter, ← ofMembers_count g]

theorem ofMembers_perm (hperm : g.Perm h) : ofMembers g = ofMembers h := by
  rw [ofMembers_eq, ofMembers_eq, mean, mean, hperm.sum_eq, hperm.length_eq]

theorem reach_iff : RealNumber.le (Normed.norm ((ofMembers g).center - k)) radius = true ↔
    Near radius (mean g) k := by
  rw [ofMembers_eq]
  exact decide_eq_true_iff

end Mean

section Step

variable {radius : ℝ} {l : ℂ} {gs : List (List ℂ)}

theorem Classes.insert {before after : List (List ℂ)} {g : List ℂ} (hradius : 0 ≤ radius)
    (hc : Classes radius (before ++ g :: after)) (hnear : ∀ m ∈ g, Near radius m l)
    (hfar : ∀ h ∈ before ++ after, ∀ m ∈ h, ¬Near radius m l) :
    Classes radius (before ++ (g ++ [l]) :: after) := by
  have hold := hc.near
  have hpair := (List.pairwise_middle Far.symm).1 hc.far
  rw [List.pairwise_cons] at hpair
  refine ⟨?_, (List.pairwise_middle Far.symm).2 (List.pairwise_cons.2 ⟨?_, hpair.2⟩)⟩
  · simp only [List.mem_append, List.mem_cons] at hold ⊢
    rintro h (hh | rfl | hh)
    · exact hold h (.inl hh)
    · simp only [List.mem_append, List.mem_singleton]
      rintro k (hk | rfl) k' (hk' | rfl)
      · exact hold g (.inr (.inl rfl)) k hk k' hk'
      · exact hnear k hk
      · exact (hnear k' hk').symm
      · exact Near.refl hradius _
    · exact hold h (.inr (.inr hh))
  · intro h hh k hk m hm hkm
    rw [List.mem_append, List.mem_singleton] at hk
    obtain hk | rfl := hk
    · exact hpair.1 h hh k hk m hm hkm
    · exact hfar h hh m hm hkm.symm

theorem Classes.concat (hradius : 0 ≤ radius) (hc : Classes radius gs)
    (hfar : ∀ g ∈ gs, ∀ m ∈ g, ¬Near radius m l) : Classes radius (gs ++ [[l]]) := by
  refine ⟨fun g hg => ?_, List.pairwise_append.2 ⟨hc.far, List.pairwise_singleton _ _, ?_⟩⟩
  · rw [List.mem_append, List.mem_singleton] at hg
    obtain hg | rfl := hg
    · exact hc.near g hg
    · intro k hk m hm
      rw [List.mem_singleton.1 hk, List.mem_singleton.1 hm]
      exact Near.refl hradius l
  · intro g hg h hh m hm k hk
    rw [List.mem_singleton.1 hh] at hk
    rw [List.mem_singleton.1 hk]
    exact hfar g hg m hm

/-- The next eigenvalue of a separated spectrum joins its class, or it opens one. -/
theorem Classes.join {spectrum : List ℂ} (hs : Separated radius spectrum) (hradius : 0 ≤ radius)
    (hc : Classes radius gs) (hne : ∀ g ∈ gs, g ≠ []) (hsub : gs.flatten.Subperm spectrum)
    (hl : l ∈ spectrum) : Classes radius (join radius l gs) := by
  have hmem : ∀ g ∈ gs, ∀ m ∈ g, m ∈ spectrum := fun g hg m hm =>
    hsub.subset (List.mem_flatten.2 ⟨g, hg, hm⟩)
  have hclass : ∀ g ∈ gs, (∃ m ∈ g, Near radius m l) → ∀ m ∈ g, Near radius m l := by
    rintro g hg ⟨m, hm, hml⟩ k hk
    exact hs.trans k (hmem g hg k hk) m (hmem g hg m hm) l hl (hc.near g hg k hk m hm) hml
  obtain ⟨before, g, after, rfl, hreach, hjoin⟩ | ⟨hout, hjoin⟩ := join_cases radius l gs
  · have hg : g ∈ before ++ g :: after := List.mem_append_right before List.mem_cons_self
    have hnear : ∀ m ∈ g, Near radius m l := by
      refine hclass g hg (by_contra fun hno => ?_)
      exact hs.apart g ((List.sublist_flatten_of_mem hg).subperm.trans hsub) (hne g hg)
        (hc.near g hg) l hl (fun m hm hml => hno ⟨m, hm, hml⟩) (reach_iff.1 hreach)
    rw [hjoin]
    refine hc.insert hradius hnear fun h hh k hk hkl => ?_
    -- What is near to the new member is near to the old ones of its group, in another group.
    obtain ⟨m, hm⟩ := List.exists_mem_of_ne_nil g (hne g hg)
    have hh' : h ∈ before ++ g :: after := by
      rw [List.mem_append] at hh ⊢
      exact hh.imp_right (List.mem_cons_of_mem g)
    exact hc.far_others h hh m hm k hk
      (hs.trans m (hmem g hg m hm) l hl k (hmem h hh' k hk) (hnear m hm) hkl.symm)
  · rw [hjoin]
    refine hc.concat hradius fun g hg m hm hml => hout g hg (reach_iff.2 ?_)
    exact near_mean (hne g hg) (hclass g hg ⟨m, hm, hml⟩)

theorem Separated.classes {spectrum : List ℂ} (hs : Separated radius spectrum)
    (hradius : 0 ≤ radius) (done : List ℂ) (hdone : done.Subperm spectrum) :
    Classes radius (groups radius done) := by
  induction done using List.reverseRecOn with
  | nil => exact ⟨by simp [groups], .nil⟩
  | append_singleton done l ih =>
    have hsub : done.Subperm spectrum := (List.sublist_append_left done [l]).subperm.trans hdone
    rw [groups_concat]
    exact (ih hsub).join hs hradius (groups_ne_nil radius done)
      ((groups_flatten radius done).subperm.trans hsub)
      (hdone.subset (List.mem_append_right done List.mem_cons_self))

end Step

section Order

variable {radius : ℝ} {l : ℂ} {gs hs : List (List ℂ)}

/-- The cluster that the eigenvalues near to a number make. -/
def classOf (radius : ℝ) (spectrum : List ℂ) (l : ℂ) : Cluster ℂ :=
  ofMembers (spectrum.filter fun m => Near radius l m)

theorem classOf_perm {s t : List ℂ} (h : s.Perm t) : classOf radius s = classOf radius t :=
  funext fun _ => ofMembers_perm (h.filter _)

theorem Classes.classOf_eq (hc : Classes radius gs) {g : List ℂ} (hg : g ∈ gs) (hl : l ∈ g) :
    classOf radius gs.flatten l = ofMembers g := by
  have hself : ∀ m ∈ g, decide (Near radius l m) = true := fun m hm =>
    decide_eq_true (hc.near g hg l hl m hm)
  obtain ⟨before, after, rfl⟩ := List.append_of_mem hg
  have hother : ∀ m ∈ (before ++ after).flatten, ¬decide (Near radius l m) = true := by
    intro m hm
    obtain ⟨h, hh, hm⟩ := List.mem_flatten.1 hm
    exact fun hlm => hc.far_others h hh l hl m hm (of_decide_eq_true hlm)
  have hperm : (before ++ g :: after).flatten.Perm (g ++ (before ++ after).flatten) :=
    List.perm_middle.flatten
  rw [classOf, ofMembers_perm (hperm.filter _), List.filter_append, List.filter_eq_self.2 hself,
    List.filter_eq_nil_iff.2 hother, List.append_nil]

/-- A cluster is counted by the eigenvalues that belong to it. -/
theorem count_map_ofMembers {cls : ℂ → Cluster ℂ} (hcls : ∀ g ∈ gs, ∀ l ∈ g, cls l = ofMembers g)
    (c : Cluster ℂ) :
    (gs.map ofMembers).count c * c.count = gs.flatten.countP fun l => cls l = c := by
  induction gs with
  | nil => simp
  | cons g gs ih =>
    obtain ⟨hg, hgs⟩ := List.forall_mem_cons.1 hcls
    rw [List.map_cons, List.flatten_cons, List.countP_append, List.count_cons, add_mul, ih hgs,
      add_comm]
    congr 1
    by_cases hc : ofMembers g = c
    · have hall : g.countP (fun l => cls l = c) = g.length :=
        List.countP_eq_length.2 fun l hl => decide_eq_true ((hg l hl).trans hc)
      rw [hall, if_pos (beq_iff_eq.2 hc), one_mul, ← hc, ofMembers_count]
    · have hnone : g.countP (fun l => cls l = c) = 0 :=
        List.countP_eq_zero.2 fun l hl h => hc ((hg l hl).symm.trans (of_decide_eq_true h))
      rw [hnone, if_neg fun h => hc (beq_iff_eq.1 h), zero_mul]

theorem count_ofMembers_pos (hne : ∀ g ∈ gs, g ≠ []) {c : Cluster ℂ} (hc : c ∈ gs.map ofMembers) :
    0 < c.count := by
  obtain ⟨g, hg, rfl⟩ := List.mem_map.1 hc
  exact ofMembers_count g ▸ List.length_pos_of_ne_nil (hne g hg)

/-- The classes of nearness make the same clusters, whichever order they are listed in. -/
theorem Classes.perm (hg : Classes radius gs) (hh : Classes radius hs) (hgne : ∀ g ∈ gs, g ≠ [])
    (hhne : ∀ h ∈ hs, h ≠ []) (hperm : gs.flatten.Perm hs.flatten) :
    (gs.map ofMembers).Perm (hs.map ofMembers) := by
  refine List.perm_iff_count.2 fun c => ?_
  have hgcount := count_map_ofMembers (fun g hmem l hl => hg.classOf_eq hmem hl) c
  have hhcount := count_map_ofMembers (fun h hmem l hl => hh.classOf_eq hmem hl) c
  rw [← classOf_perm hperm, ← hperm.countP_eq, ← hgcount] at hhcount
  obtain hc | hc := Nat.eq_zero_or_pos c.count
  · rw [List.count_eq_zero_of_not_mem fun h => (count_ofMembers_pos hgne h).ne' hc,
      List.count_eq_zero_of_not_mem fun h => (count_ofMembers_pos hhne h).ne' hc]
  · exact (Nat.eq_of_mul_eq_mul_right hc hhcount).symm

end Order

section Necessity

variable {radius : ℝ} {k l m : ℂ} {g s t spectrum : List ℂ}

theorem exists_perm_append (h : t.Subperm s) : ∃ u, (t ++ u).Perm s :=
  ⟨s.diff t, List.subperm_append_diff_self_of_count_le fun l _ => h.count_le l⟩

theorem mean_singleton (l : ℂ) : mean [l] = l := by
  rw [mean, List.sum_singleton, List.length_singleton, Nat.cast_one, div_one]

theorem groups_of_near (hne : g ≠ []) (hnear : ∀ l ∈ g, ∀ m ∈ g, Near radius l m) :
    groups radius g = [g] := by
  induction g using List.reverseRecOn with
  | nil => exact absurd rfl hne
  | append_singleton g l ih =>
    by_cases hg : g = []
    · rw [hg]
      rfl
    · have hmem : ∀ m ∈ g, m ∈ g ++ [l] := fun m hm => List.mem_append_left [l] hm
      have hl : Near radius (mean g) l := near_mean hg fun m hm =>
        hnear m (hmem m hm) l (List.mem_append_right g List.mem_cons_self)
      rw [groups_concat, ih hg fun m hm k hk => hnear m (hmem m hm) k (hmem k hk), join,
        if_pos (reach_iff.2 hl)]

theorem groups_of_far (hfar : s.Pairwise fun l m => ¬Near radius l m) :
    groups radius s = s.map ([·]) := by
  induction s using List.reverseRecOn with
  | nil => rfl
  | append_singleton s l ih =>
    obtain ⟨hs, -, hl⟩ := List.pairwise_append.1 hfar
    have hout : ∀ m ∈ s, ¬Near radius (mean [m]) l := by
      intro m hm
      rw [mean_singleton]
      exact hl m hm l List.mem_cons_self
    rw [groups_concat, ih hs, List.map_append]
    obtain ⟨before, g, after, hg, hreach, -⟩ | ⟨-, hjoin⟩ := join_cases radius l (s.map ([·]))
    · obtain ⟨m, hm, rfl⟩ := List.mem_map.1 (hg ▸ List.mem_append_right before List.mem_cons_self)
      exact absurd (reach_iff.1 hreach) (hout m hm)
    · exact hjoin

theorem Merges.far (h : Merges radius s) {i j : ℕ} (hij : i < j) {g g' : List ℂ}
    (hg : (groups radius s)[i]? = some g) (hg' : (groups radius s)[j]? = some g') :
    Far radius g g' := by
  obtain ⟨hi, rfl⟩ := List.getElem?_eq_some_iff.1 hg
  obtain ⟨hj, rfl⟩ := List.getElem?_eq_some_iff.1 hg'
  exact List.pairwise_iff_getElem.1 h i j hi hj hij

/-- If the outer two of a chain come first, they open two clusters, and the middle one is near to
both of them. -/
theorem near_trans_of_merges (hradius : 0 ≤ radius)
    (hmerges : ∀ s, s.Perm spectrum → Merges radius s) (hk : k ∈ spectrum) (hl : l ∈ spectrum)
    (hm : m ∈ spectrum) (hkl : Near radius k l) (hlm : Near radius l m) : Near radius k m := by
  by_contra hkm
  have hnodup : [k, m, l].Nodup := by
    simp only [List.nodup_cons, List.mem_cons, List.not_mem_nil, or_false, not_or,
      not_false_eq_true, List.nodup_nil, and_true]
    refine ⟨⟨?_, ?_⟩, ?_⟩
    · rintro rfl
      exact hkm (Near.refl hradius k)
    · rintro rfl
      exact hkm hlm
    · rintro rfl
      exact hkm hkl
  have hsub : [k, m, l] ⊆ spectrum := by simp [hk, hl, hm]
  have hgroups : groups radius [k, m, l] = [[k, l], [m]] := by
    have hfar : groups radius [k, m] = [[k], [m]] :=
      groups_of_far (List.pairwise_pair.2 hkm)
    have hreach : Near radius (mean [k]) l := by rwa [mean_singleton]
    rw [show [k, m, l] = [k, m] ++ [l] from rfl, groups_concat, hfar, join,
      if_pos (reach_iff.2 hreach), List.singleton_append]
  obtain ⟨u, hu⟩ := exists_perm_append (hnodup.subperm hsub)
  obtain ⟨g, hg, hfirst⟩ := prefix_groups radius [k, m, l] u (i := 0) (g := [k, l]) (hgroups ▸ rfl)
  obtain ⟨h, hh, hsecond⟩ := prefix_groups radius [k, m, l] u (i := 1) (g := [m]) (hgroups ▸ rfl)
  exact (hmerges _ hu).far Nat.zero_lt_one hg hh l (hfirst.subset (by simp)) m
    (hsecond.subset (by simp)) hlm

/-- Some order has as many clusters as there are members far from each other. -/
theorem exists_perm_length_le (hradius : 0 ≤ radius)
    (hfar : t.Pairwise fun l m => ¬Near radius l m) (hsub : t ⊆ s) :
    ∃ u, u.Perm s ∧ t.length ≤ (groups radius u).length := by
  have hnodup : t.Nodup := by
    refine hfar.imp fun {l m} hlm heq => hlm ?_
    rw [heq]
    exact Near.refl hradius m
  obtain ⟨u, hu⟩ := exists_perm_append (hnodup.subperm hsub)
  refine ⟨t ++ u, hu, ?_⟩
  calc t.length = (groups radius t).length := by rw [groups_of_far hfar, List.length_map]
    _ ≤ (groups radius (t ++ u)).length := length_groups_le radius t u

/-- When two members of the first cluster are far from each other, an order that starts with both of
them and with one member of every other cluster has more clusters. -/
theorem exists_perm_length_lt {first : List ℂ} {rest : List (List ℂ)} (hradius : 0 ≤ radius)
    (hmerges : Merges radius s) (hs : groups radius s = first :: rest) (hk : k ∈ first)
    (hl : l ∈ first) (hfar : ¬Near radius k l) :
    ∃ t, t.Perm s ∧ (groups radius s).length < (groups radius t).length := by
  have hflatten := groups_flatten radius s
  have hne := groups_ne_nil radius s
  rw [Merges, hs] at hmerges
  rw [hs] at hflatten hne
  obtain ⟨hfirst, hrest⟩ := List.pairwise_cons.1 hmerges
  have hhead : ∀ h ∈ rest, h.headD 0 ∈ h := by
    intro h hh
    cases h with
    | nil => exact absurd rfl (hne [] (List.mem_cons_of_mem first hh))
    | cons m h => exact List.mem_cons_self
  have hreps : (k :: l :: rest.map (·.headD 0)).Pairwise fun l m => ¬Near radius l m := by
    refine List.pairwise_cons.2 ⟨?_, List.pairwise_cons.2 ⟨?_, List.pairwise_map.2 ?_⟩⟩
    · rw [List.forall_mem_cons, List.forall_mem_map]
      exact ⟨hfar, fun h hh => hfirst h hh k hk _ (hhead h hh)⟩
    · rw [List.forall_mem_map]
      exact fun h hh => hfirst h hh l hl _ (hhead h hh)
    · exact hrest.imp_of_mem fun hg hh hfar => hfar _ (hhead _ hg) _ (hhead _ hh)
  have hsub : k :: l :: rest.map (·.headD 0) ⊆ s := by
    have hmem : ∀ g ∈ first :: rest, ∀ x ∈ g, x ∈ s := fun g hg x hx =>
      hflatten.subset (List.mem_flatten.2 ⟨g, hg, hx⟩)
    rw [List.cons_subset, List.cons_subset]
    refine ⟨hmem first List.mem_cons_self k hk, hmem first List.mem_cons_self l hl, ?_⟩
    intro x hx
    obtain ⟨h, hh, rfl⟩ := List.mem_map.1 hx
    exact hmem h (List.mem_cons_of_mem first hh) _ (hhead h hh)
  obtain ⟨u, hu, hlength⟩ := exists_perm_length_le hradius hreps hsub
  rw [List.length_cons, List.length_cons, List.length_map] at hlength
  refine ⟨u, hu, ?_⟩
  rw [hs, List.length_cons]
  omega

/-- If a mean reaches an eigenvalue that no member is near to, the cluster takes it when the members
come first, though they are far from it. -/
theorem not_near_mean_of_perm (hradius : 0 ≤ radius)
    (hmerges : ∀ s, s.Perm spectrum → Merges radius s)
    (hlength : ∀ s, s.Perm spectrum →
      (groups radius s).length = (groups radius spectrum).length)
    (hg : g.Subperm spectrum) (hne : g ≠ []) (hnear : ∀ l ∈ g, ∀ m ∈ g, Near radius l m)
    (hk : k ∈ spectrum) (hfar : ∀ l ∈ g, ¬Near radius l k) : ¬Near radius (mean g) k := by
  intro hmean
  have hkg : k ∉ g := fun hmem => hfar k hmem (Near.refl hradius k)
  have hgroups : groups radius (g ++ [k]) = [g ++ [k]] := by
    rw [groups_concat, groups_of_near hne hnear, join, if_pos (reach_iff.2 hmean)]
  have hsub : (g ++ [k]).Subperm spectrum :=
    (List.perm_append_singleton k g).subperm.trans
      (List.cons_subperm_of_not_mem_of_mem hkg hk hg)
  obtain ⟨u, hu⟩ := exists_perm_append hsub
  obtain ⟨first, hfirst, hstart⟩ :=
    prefix_groups radius (g ++ [k]) u (i := 0) (g := g ++ [k]) (hgroups ▸ rfl)
  obtain ⟨rest, hgs⟩ : ∃ rest, groups radius (g ++ [k] ++ u) = first :: rest := by
    rw [← List.head?_eq_getElem?] at hfirst
    exact List.head?_eq_some_iff.1 hfirst
  obtain ⟨l, hl⟩ := List.exists_mem_of_ne_nil g hne
  obtain ⟨t, ht, hlt⟩ := exists_perm_length_lt hradius (hmerges _ hu) hgs
    (hstart.subset (List.mem_append_left [k] hl))
    (hstart.subset (List.mem_append_right g List.mem_cons_self)) (hfar l hl)
  rw [hlength _ hu, hlength _ (ht.trans hu)] at hlt
  exact hlt.false

end Necessity

/-- If what is out of reach is further away than two radii, the spectrum is separated. -/
theorem Separated.of_gap {radius : ℝ} {spectrum : List ℂ}
    (hgap : ∀ l ∈ spectrum, ∀ m ∈ spectrum, radius < ‖l - m‖ → 2 * radius < ‖l - m‖) :
    Separated radius spectrum := by
  have hnear : ∀ l ∈ spectrum, ∀ m ∈ spectrum, ‖l - m‖ ≤ radius + radius → Near radius l m := by
    intro l hl m hm hle
    by_contra hfar
    linarith [hgap l hl m hm (not_le.1 hfar)]
  refine ⟨fun k hk l _ m hm hkl hlm => hnear k hk m hm ?_, fun g hg hne hall k hk hfar hmean => ?_⟩
  · exact (norm_sub_le_norm_sub_add_norm_sub k l m).trans (add_le_add hkl hlm)
  · obtain ⟨l, hl⟩ := List.exists_mem_of_ne_nil g hne
    have hlmean : Near radius l (mean g) := (near_mean hne fun m hm => hall m hm l hl).symm
    refine hfar l hl (hnear l (hg.subset hl) k hk ?_)
    exact (norm_sub_le_norm_sub_add_norm_sub l (mean g) k).trans (add_le_add hlmean hmean)

/-- In whatever order a spectrum is listed, near eigenvalues are in one cluster and the clusters are
the same up to order: this holds of the separated spectra and of no others. -/
theorem merges_iff_separated (radius : ℝ) (spectrum : List ℂ) (hradius : 0 ≤ radius) :
    ((∀ s, s.Perm spectrum →
        Merges radius s ∧ (ofSpectrum radius s).Perm (ofSpectrum radius spectrum)) ↔
      Separated radius spectrum) ∧
    ((∀ l ∈ spectrum, ∀ m ∈ spectrum, radius < ‖l - m‖ → 2 * radius < ‖l - m‖) →
      Separated radius spectrum) := by
  refine ⟨⟨fun h => ?_, fun hs s hperm => ?_⟩, Separated.of_gap⟩
  · have hmerges : ∀ s, s.Perm spectrum → Merges radius s := fun s hs => (h s hs).1
    have hlength : ∀ s, s.Perm spectrum →
        (groups radius s).length = (groups radius spectrum).length := by
      intro s hs
      have hclusters := (h s hs).2.length_eq
      rwa [ofSpectrum_eq_map_groups, ofSpectrum_eq_map_groups, List.length_map, List.length_map]
        at hclusters
    exact ⟨fun k hk l hl m hm => near_trans_of_merges hradius hmerges hk hl hm,
      fun g hg hne hall k hk => not_near_mean_of_perm hradius hmerges hlength hg hne hall hk⟩
  · have hclasses := hs.classes hradius s hperm.subperm
    have hclasses' := hs.classes hradius spectrum (List.Subperm.refl spectrum)
    have hflatten := ((groups_flatten radius s).trans hperm).trans
      (groups_flatten radius spectrum).symm
    rw [ofSpectrum_eq_map_groups, ofSpectrum_eq_map_groups]
    exact ⟨hclasses.far, hclasses.perm hclasses' (groups_ne_nil radius s)
      (groups_ne_nil radius spectrum) hflatten⟩

/-- Two eigenvalues at distance one cluster with each other, and not with one far away. -/
theorem merges_iff_separated_pair :
    (0 : ℝ) ≤ 1 ∧ ∀ s, s.Perm [0, 1, 5] →
      Merges 1 s ∧ (ofSpectrum (1 : ℝ) s).Perm (ofSpectrum (1 : ℝ) [0, 1, 5]) := by
  have hspectrum := merges_iff_separated 1 [0, 1, 5] zero_le_one
  refine ⟨zero_le_one, hspectrum.1.2 (hspectrum.2 ?_)⟩
  norm_num

theorem groups_chain {radius : ℝ} {k l m : ℂ} (hjoins : Near radius (mean [k]) l)
    (hopens : ¬Near radius (mean [k, l]) m) : groups radius [k, l, m] = [[k, l], [m]] := by
  simp [groups, join, reach_iff, hjoins, hopens]

/-- A chain of eigenvalues, each near to the next: the mean of the first two has moved away from the
last one, and from the other end the clusters are different ones. -/
theorem not_merges_chain :
    Near (9 / 2) 4 7 ∧ ¬Merges (9 / 2) [0, 4, 7] ∧
      ¬(ofSpectrum (9 / 2 : ℝ) [(7 : ℂ), 4, 0]).Perm (ofSpectrum (9 / 2 : ℝ) [(0 : ℂ), 4, 7]) := by
  have hnear : Near (9 / 2) 4 7 := by norm_num [Near]
  have hgroups : groups (9 / 2 : ℝ) [(0 : ℂ), 4, 7] = [[0, 4], [7]] :=
    groups_chain (by norm_num [Near, mean]) (by norm_num [Near, mean])
  have hgroups' : groups (9 / 2 : ℝ) [(7 : ℂ), 4, 0] = [[7, 4], [0]] :=
    groups_chain (by norm_num [Near, mean]) (by norm_num [Near, mean])
  refine ⟨hnear, fun hmerges => ?_, fun hperm => ?_⟩
  · rw [Merges, hgroups, List.pairwise_pair] at hmerges
    exact hmerges 4 (by simp) 7 (by simp) hnear
  · rw [ofSpectrum_eq_map_groups, ofSpectrum_eq_map_groups, hgroups, hgroups'] at hperm
    have hmem : (⟨0, 1⟩ : Cluster ℂ) ∈ [ofMembers [0, 4], ofMembers [7]] :=
      hperm.subset (by simp [ofMembers])
    norm_num [ofMembers_eq, mean] at hmem

end Cluster

end LieNormalForm

end
