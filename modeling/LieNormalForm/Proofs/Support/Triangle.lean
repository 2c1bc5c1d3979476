import LieNormalForm.Proofs.Support.Series
import LieNormalForm.Graded.Triangle

/-!
# Degrees in the Lie triangle

For every arithmetic of the coefficients, rounded or not: a triangle whose generator terms have
the degrees of a family finds all its entries, and entry `F[i,m]` has degree `i + m`. A larger
order adds diagonals to the table and leaves those that are there, so a result of a smaller order
is the result of a larger one without the terms above. On the diagonals up to `N` no generator
term from number `N` on is read; functions do not read the last one before either, because it
meets constants only.
-/

namespace LieNormalForm

variable {C W : Type} [Weight W] [Coefficient C W]

namespace LieTriangle

abbrev EntryGraded (len n i m : ℕ) (e : Tuple C) : Prop := e.Graded len n (i + m)

/-- The generator terms have the degrees of a family, and fields are as long as they are wide. -/
structure Graded (L : LieTriangle C) (len n : ℕ) : Prop where
  length : L.operator = .bracket → len = n
  family : LieOperator.GradedFamily n 0 L.generators

variable {L L' : LieTriangle C} {len n N r : ℕ} {t : GradedTable (Tuple C)} {f g : Tuple C}

theorem graded_ofGenerator (op : LieOperator) {U : Tuple C} (hU : U.Framed n n)
    (hlen : op = .bracket → len = n) (order : ℕ) : (ofGenerator op U order).Graded len n := by
  refine ⟨hlen, fun k w hk => ?_⟩
  obtain rfl := Tuple.seeds_getElem? hk
  rw [Nat.zero_add]
  exact hU.graded_seed 2 k

theorem addDiagonal_agree {seed : Tuple C} {t' : GradedTable (Tuple C)}
    (h : L.addDiagonal t N seed = .ok t') : t'.Agree N t :=
  ((GradedTable.Agree.refl N t).insert (by omega) seed).fillRows (Nat.le_refl N) (Nat.le_refl N) h

/-- A specification that the entries of a triangle over a subject meet: the seeds do, and what the
recurrence and the correction of a diagonal make of the entries does so again. -/
structure Keeps (L : LieTriangle C) (f : Tuple C) (spec : ℕ → ℕ → Tuple C → Prop) : Prop where
  seed : ∀ N, spec 0 N (f.seed 0 N)
  zeros : ∀ N, spec 0 N (.zeros f.size f.nvars)
  next : GradedTable.Continues spec (L.operator.recurrence L.generators)
  corrected : ∀ N i m e reached, i + m = N → spec i m e → spec N 0 reached →
    spec i m (e + (f.seed 0 N - reached))

theorem Graded.keeps (hL : L.Graded len n) (hf : f.Framed len n) :
    L.Keeps f (EntryGraded len n) where
  seed N := by
    rw [EntryGraded, Nat.zero_add]
    exact hf.graded_seed 0 N
  zeros N := by
    rw [hf.size_eq, hf.nvars_eq]
    exact .zeros len n (0 + N)
  next N i t hi ht := by
    obtain ⟨e, hok, he⟩ := LieOperator.recurrence_graded (b := 0) hL.length ht hi hL.family
    refine ⟨e, hok, ?_⟩
    rwa [EntryGraded, show i + 1 + (N - (i + 1)) = N + 0 by omega]
  corrected N i m e reached hN he hreached := by
    subst hN
    exact he.add ((hf.graded_seed 0 (i + m)).sub hreached)

section Transform

theorem Keeps.table {spec : ℕ → ℕ → Tuple C → Prop} (h : L.Keeps f spec) (count : ℕ) :
    ∃ t, L.table f count = .ok t ∧ t.FilledTo spec count 0 := by
  induction count with
  | zero => exact ⟨.empty, rfl, .empty _⟩
  | succ N ih =>
    obtain ⟨t, htable, ht⟩ := ih
    obtain ⟨t', hadd, ht'⟩ := ht.diagonal h.next (h.seed N)
    refine ⟨t', ?_, ht'.next⟩
    simp only [LieTriangle.table, htable, LieTriangle.addDiagonal, hadd]

theorem Graded.table (hL : L.Graded len n) (hf : f.Framed len n) (count : ℕ) :
    ∃ t, L.table f count = .ok t ∧ t.FilledTo (EntryGraded len n) count 0 :=
  (hL.keeps hf).table count

theorem table_agree {count k : ℕ} (h : L.table f (count + k) = .ok t) :
    ∃ t₀, L.table f count = .ok t₀ ∧ t.Agree count t₀ := by
  induction k generalizing t with
  | zero => exact ⟨t, h, .refl count t⟩
  | succ k ih =>
    rw [← Nat.add_assoc, table] at h
    split at h
    · cases h
    · rename_i t₁ h₁
      obtain ⟨t₀, htable, hagree⟩ := ih h₁
      exact ⟨t₀, htable, ((addDiagonal_agree h).mono (Nat.le_add_right count k)).trans hagree⟩

theorem transform_truncate {s : ℕ} (hL : L.Graded len n) (hf : f.Shaped len n) (hrs : r ≤ s) :
    L.transform f r = (L.transform f s).map fun g => g.truncate r := by
  obtain ⟨k, rfl⟩ := Nat.exists_eq_add_of_le hrs
  obtain ⟨t, htable, ht⟩ := hL.table hf.framed (r + 1 + k)
  obtain ⟨t₀, htable₀, hagree⟩ := table_agree htable
  obtain ⟨column, hcolumn, hcolumn₀, hsum⟩ :=
    Tuple.firstColumn_truncate f (b := 0) (r := r) ht hagree (Nat.le_add_right _ k) rfl
  rw [Nat.add_right_comm] at htable hcolumn
  simp only [transform, htable, hcolumn, htable₀, hcolumn₀, Except.map, hsum]

end Transform

section Invert

/-- What is known of an inverse after the diagonals before `N`. -/
structure Inverse.Graded (len n N : ℕ) (s : Inverse C) : Prop where
  filled : s.table.FilledTo (EntryGraded len n) N 0
  subject : s.subject.Supported fun _ m => m.degree < N

theorem Keeps.invertStep {spec : ℕ → ℕ → Tuple C → Prop} (h : L.Keeps f spec) {s : Inverse C}
    (hs : s.table.FilledTo spec N 0) :
    ∃ s' reached, L.invertStep f N s = .ok s' ∧ s'.table.FilledTo spec (N + 1) 0 ∧
      spec N 0 reached ∧ s'.subject = s.subject +
        (f.seed 0 N - reached).scaleWeight (Weight.inverseFactorial N : W) := by
  obtain ⟨t, hadd, ht⟩ := hs.diagonal h.next (h.zeros N)
  obtain ⟨reached, hget, hreached⟩ := ht N 0 (by omega)
  refine ⟨_, reached, by simp only [LieTriangle.invertStep, addDiagonal, hadd, hget]; rfl, ?_,
    hreached, rfl⟩
  exact (ht.mapDiagonal (fun _ _ _ _ he => he)
    fun i m e hi he => h.corrected N i m e reached hi he hreached).next

theorem Graded.invertStep (hL : L.Graded len n) (hf : f.Framed len n) {s : Inverse C}
    (hs : s.Graded len n N) :
    ∃ s', L.invertStep f N s = .ok s' ∧ s'.Graded len n (N + 1) ∧
      ∃ c : Tuple C, c.Graded len n N ∧ s'.subject = s.subject + c := by
  obtain ⟨s', reached, hstep, hfilled, hreached, hsubject⟩ := (hL.keeps hf).invertStep hs.filled
  have hscaled := ((hf.graded_seed 0 N).sub hreached).scaleWeight (Weight.inverseFactorial N : W)
  refine ⟨s', hstep, ⟨hfilled, ?_⟩, _, hscaled, hsubject⟩
  rw [hsubject]
  refine (hs.subject.imp fun _ m hm => Nat.lt_succ_of_lt hm).add ?_
  exact hscaled.supported.imp fun _ m hm => by have hm := hm.2; omega

theorem Keeps.inverseTable {spec : ℕ → ℕ → Tuple C → Prop} (h : L.Keeps f spec) (count : ℕ) :
    ∃ s, L.inverseTable f count = .ok s ∧ s.table.FilledTo spec count 0 := by
  induction count with
  | zero => exact ⟨_, rfl, .empty _⟩
  | succ N ih =>
    obtain ⟨s, htable, hs⟩ := ih
    obtain ⟨s', -, hstep, hs', -⟩ := h.invertStep hs
    refine ⟨s', ?_, hs'⟩
    simp only [LieTriangle.inverseTable, htable, hstep]

theorem Graded.inverseTable (hL : L.Graded len n) (hf : f.Framed len n) (count : ℕ) :
    ∃ s, L.inverseTable f count = .ok s ∧ s.Graded len n count := by
  induction count with
  | zero =>
    refine ⟨_, rfl, .empty _, .zeros _ _⟩
  | succ N ih =>
    obtain ⟨s, htable, hs⟩ := ih
    obtain ⟨s', hstep, hs', -⟩ := hL.invertStep hf hs
    refine ⟨s', ?_, hs'⟩
    simp only [LieTriangle.inverseTable, htable, hstep]

theorem invert_truncate {s : ℕ} (hL : L.Graded len n) (hf : f.Shaped len n) (hrs : r ≤ s) :
    L.invert f r = (L.invert f s).map fun g => g.truncate r := by
  obtain ⟨s₀, htable₀, hs₀⟩ := hL.inverseTable hf.framed (r + 1)
  have hsame : ∀ k, ∃ s₁, L.inverseTable f (r + 1 + k) = .ok s₁ ∧ s₁.Graded len n (r + 1 + k) ∧
      s₁.subject.truncate r = s₀.subject := by
    intro k
    induction k with
    | zero =>
      refine ⟨s₀, htable₀, hs₀, Tuple.map_filterTerms_eq_self ?_⟩
      exact hs₀.subject.imp fun _ m hm => decide_eq_true (Nat.le_of_lt_succ hm)
    | succ k ih =>
      -- the corrections of later diagonals have terms above the order only
      obtain ⟨s₁, htable, hs₁, htruncate⟩ := ih
      obtain ⟨s₂, hstep, hs₂, c, hc, hsubject⟩ := hL.invertStep hf.framed hs₁
      refine ⟨s₂, ?_, hs₂, ?_⟩
      · rw [← Nat.add_assoc]
        simp only [LieTriangle.inverseTable, htable, hstep]
      · rw [hsubject, ← htruncate]
        refine Tuple.map_filterTerms_add (hc.supported.imp fun _ m hm => ?_)
        have hm := hm.2
        exact decide_eq_false (by omega)
  obtain ⟨k, rfl⟩ := Nat.exists_eq_add_of_le hrs
  obtain ⟨s₁, htable, -, htruncate⟩ := hsame k
  rw [Nat.add_right_comm] at htable
  simp only [invert, htable₀, htable, Except.map, htruncate]

end Invert

section Alike

/-- Both triangles fill in the diagonals up to `N` in the same way. -/
def Alike (len n N : ℕ) (L L' : LieTriangle C) : Prop :=
  ∀ (t : GradedTable (Tuple C)) (seed : Tuple C) (k : ℕ), k ≤ N →
    t.FilledTo (EntryGraded len n) k 0 → L.addDiagonal t k seed = L'.addDiagonal t k seed

theorem Alike.refl (len n N : ℕ) (L : LieTriangle C) : L.Alike len n N L := fun _ _ _ _ _ => rfl

theorem Alike.symm (h : L.Alike len n N L') : L'.Alike len n N L :=
  fun t seed k hk ht => (h t seed k hk ht).symm

theorem Alike.trans {L'' : LieTriangle C} (h : L.Alike len n N L') (h' : L'.Alike len n N L'') :
    L.Alike len n N L'' :=
  fun t seed k hk ht => (h t seed k hk ht).trans (h' t seed k hk ht)

theorem alike_append (op : LieOperator) {ws : List (Tuple C)} (hws : N ≤ ws.length)
    (vs : List (Tuple C)) : (⟨op, ws ++ vs⟩ : LieTriangle C).Alike len n N ⟨op, ws⟩ := by
  intro t seed k hk _
  apply GradedTable.fillRows_congr
  intro t' i hi _
  exact LieOperator.recurrence_append (by omega) vs

theorem alike_concat {ws : List (Tuple C)} (hws : ws.length + 1 = N) (w : Tuple C) :
    (⟨.negatedDerivative, ws ++ [w]⟩ : LieTriangle C).Alike len n N ⟨.negatedDerivative, ws⟩ := by
  intro t seed k hk ht
  apply GradedTable.fillRows_congr
  intro t' i hi hfirst
  by_cases hlast : i < ws.length
  · exact LieOperator.recurrence_append hlast [w]
  · -- only the last row of the last diagonal is left
    obtain ⟨g, hget, hg⟩ := ht 0 0 (by omega)
    have hunchanged : t'.get 0 0 = .ok g := by
      rw [hfirst 0, GradedTable.get, GradedTable.get?_insert, if_neg (by omega)]
      exact hget
    have hcolumn : k - (i + 1) = 0 := by omega
    rw [hcolumn]
    exact LieOperator.recurrence_concat (by omega) hunchanged hg w

theorem alike_ofGenerator (op : LieOperator) (U : Tuple C) {s : ℕ} (hr : 1 ≤ r) (hrs : r ≤ s) :
    (ofGenerator op U s).Alike len n r (ofGenerator op U r) := by
  obtain ⟨k, rfl⟩ := Nat.exists_eq_add_of_le hrs
  have hcount : r + k - 1 + 1 = r - 1 + 1 + k := by omega
  rw [ofGenerator, ofGenerator, hcount, Tuple.seeds_add]
  apply alike_append
  rw [Tuple.seeds_length]
  omega

/-- On fields the terms of the generator up to degree `r + 1` matter. -/
theorem ofGenerator_eq_of_truncate (op : LieOperator) {U V : Tuple C} (hr : 1 ≤ r)
    (h : U.truncate (r + 1) = V.truncate (r + 1)) : ofGenerator op U r = ofGenerator op V r := by
  rw [ofGenerator, ofGenerator, Tuple.seeds_eq_of_truncate h (by omega)]

/-- On functions the terms of the generator up to degree `r` matter. -/
theorem alike_of_truncate {U V : Tuple C} (hr : 1 ≤ r) (h : U.truncate r = V.truncate r) :
    (ofGenerator .negatedDerivative U r).Alike len n r (ofGenerator .negatedDerivative V r) := by
  have hlast : ∀ U : Tuple C, (ofGenerator .negatedDerivative U r).Alike len n r
      ⟨.negatedDerivative, U.seeds 2 (r - 1)⟩ := by
    intro U
    -- of the last term, of degree `r + 1`, nothing is to be seen
    rw [ofGenerator, Tuple.seeds_add]
    apply alike_concat
    rw [Tuple.seeds_length]
    omega
  have hsame : U.seeds 2 (r - 1) = V.seeds 2 (r - 1) := Tuple.seeds_eq_of_truncate h (by omega)
  exact (hsame ▸ hlast U).trans (hlast V).symm

theorem Alike.table (h : L.Alike len n N L') (hL : L.Graded len n) (hf : f.Shaped len n)
    (hfg : f.truncate N = g.truncate N) {count : ℕ} (hcount : count ≤ N + 1) :
    L.table f count = L'.table g count := by
  induction count with
  | zero => rfl
  | succ k ih =>
    obtain ⟨t, htable, ht⟩ := hL.table hf.framed k
    have hprefix := ih (by omega)
    have hseed : f.seed 0 k = g.seed 0 k := Tuple.seed_eq_of_truncate hfg (by omega)
    rw [LieTriangle.table, LieTriangle.table, ← hprefix, htable, hseed]
    exact h t (g.seed 0 k) k (by omega) ht

theorem Alike.inverseTable (h : L.Alike len n N L') (hL : L.Graded len n) (hf : f.Shaped len n)
    (hfg : f.truncate N = g.truncate N) {count : ℕ} (hcount : count ≤ N + 1) :
    L.inverseTable f count = L'.inverseTable g count := by
  have hsize := Tuple.size_eq_of_truncate hfg
  have hnvars := Tuple.nvars_eq_of_truncate hfg
  induction count with
  | zero => rw [LieTriangle.inverseTable, LieTriangle.inverseTable, hsize, hnvars]
  | succ k ih =>
    obtain ⟨s, htable, hs⟩ := hL.inverseTable hf.framed k
    have hprefix := ih (by omega)
    have hseed : f.seed 0 k = g.seed 0 k := Tuple.seed_eq_of_truncate hfg (by omega)
    have hdiagonal := h s.table (.zeros g.size g.nvars) k (by omega) hs.filled
    rw [LieTriangle.inverseTable, LieTriangle.inverseTable, ← hprefix, htable]
    simp only [invertStep, hsize, hnvars, hdiagonal, hseed]

/-- What has to be known of a way to run a triangle: a larger order only adds terms of higher
degree, and alike triangles lead to one result for subjects that are alike up to the order. -/
structure Stable (run : LieTriangle C → Tuple C → ℕ → Except Error (Tuple C)) : Prop where
  truncate {L : LieTriangle C} {f : Tuple C} {len n r s : ℕ} : L.Graded len n → f.Shaped len n →
    r ≤ s → run L f r = (run L f s).map fun g => g.truncate r
  congr {L L' : LieTriangle C} {f g : Tuple C} {len n r : ℕ} : L.Alike len n r L' →
    L.Graded len n → f.Shaped len n → f.truncate r = g.truncate r → run L f r = run L' g r

theorem transform_stable : Stable (transform : LieTriangle C → _) := by
  refine ⟨transform_truncate, fun {L L' f g len n r} h hL hf hfg => ?_⟩
  have hsize := Tuple.size_eq_of_truncate hfg
  have hnvars := Tuple.nvars_eq_of_truncate hfg
  simp only [transform, h.table hL hf hfg (Nat.le_refl _), Tuple.weightedSum, hsize, hnvars]

theorem invert_stable : Stable (invert : LieTriangle C → _) := by
  refine ⟨invert_truncate, fun {L L' f g len n r} h hL hf hfg => ?_⟩
  simp only [invert, h.inverseTable hL hf hfg (Nat.le_refl _)]

end Alike

end LieTriangle

end LieNormalForm
