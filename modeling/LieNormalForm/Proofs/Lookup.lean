import LieNormalForm.Proofs.Truncation

/-!
# What the tables hold

A table filled by diagonals is only asked for entries that are there: a row of a diagonal asks for
the diagonal before it and for earlier rows of its own, and the sums over a family stop at the
row. Values decide about terms that are left out, not about the places that are asked for, so this
is so for all tuples, whatever the arithmetic makes of them. After some diagonals the entries of
these are there, and no others; if every monomial has one exponent for each variable, each entry
is homogeneous of the degree that goes with its place.
-/

namespace LieNormalForm

namespace GradedTable

variable {E : Type} {spec : ℕ → ℕ → E → Prop} {n k count : ℕ} {t t' : GradedTable E}

/-- Nothing is there from the diagonal `n` on. -/
def EmptyFrom (n : ℕ) (t : GradedTable E) : Prop := ∀ i m, n ≤ i + m → t.get? i m = none

namespace EmptyFrom

theorem empty : (empty : GradedTable E).EmptyFrom 0 := fun i m _ => get?_empty i m

theorem mono (h : t.EmptyFrom n) (hk : n ≤ k) : t.EmptyFrom k :=
  fun i m hi => h i m (Nat.le_trans hk hi)

theorem insert (h : t.EmptyFrom n) {i m : ℕ} (hi : i + m < n) (e : E) :
    (t.insert i m e).EmptyFrom n := by
  intro j l hj
  rw [get?_insert, if_neg (by rintro ⟨rfl, rfl⟩; omega)]
  exact h j l hj

theorem fillRows {next : GradedTable E → ℕ → ℕ → Except Error E} (h : t.EmptyFrom (n + 1))
    (hcount : count ≤ n) (hok : fillRows next n count t = .ok t') : t'.EmptyFrom (n + 1) :=
  fillRows_keeps (P := EmptyFrom (n + 1)) (fun _ _ e _ ht _ => ht.insert (by omega) e) h hok

theorem diagonal {next : GradedTable E → ℕ → ℕ → Except Error E} (h : t.EmptyFrom n) {seed : E}
    (hok : GradedTable.fillRows next n n (t.insert 0 n seed) = .ok t') : t'.EmptyFrom (n + 1) :=
  ((h.mono (Nat.le_succ n)).insert (by omega) seed).fillRows (Nat.le_refl n) hok

theorem mapDiagonal (h : t.EmptyFrom n) (k : ℕ) (f : E → E) : (t.mapDiagonal k f).EmptyFrom n := by
  intro i m hi
  rw [get?_mapDiagonal, h i m hi, Option.map_none, ite_self]

end EmptyFrom

/-- The entries of the first `n` diagonals are there as specified, and no others. -/
structure Complete (spec : ℕ → ℕ → E → Prop) (n : ℕ) (t : GradedTable E) : Prop where
  filled : ∀ i m, i + m < n → ∃ e, t.get i m = .ok e ∧ spec i m e
  beyond : ∀ i m, n ≤ i + m → t.get i m = .error (.missingEntry i m)

theorem FilledTo.complete (h : t.FilledTo spec n 0) (hempty : t.EmptyFrom n) :
    t.Complete spec n where
  filled i m hi := h i m (.inl hi)
  beyond i m hi := by rw [get, hempty i m hi]

end GradedTable

namespace LieOperator

variable {C W : Type} [Weight W] [Coefficient C W] {t : GradedTable (Tuple C)} {i m : ℕ}

theorem addTerms_ok (op : LieOperator) (ht : ∀ k ≤ i, ∃ g, t.get k m = .ok g) (j : ℕ)
    (ws : List (Tuple C)) (e : Tuple C) : ∃ e', op.addTerms t i m j ws e = .ok e' := by
  induction ws generalizing j e with
  | nil => exact ⟨e, rfl⟩
  | cons w ws ih =>
    unfold addTerms
    split
    · exact ⟨e, rfl⟩
    · obtain ⟨g, hget⟩ := ht (i - j) (by omega)
      simp only [hget]
      split
      · exact ih (j + 1) e
      · exact ih (j + 1) _

theorem recurrence_continues (op : LieOperator) (ws : List (Tuple C)) :
    GradedTable.Continues (fun _ _ _ => True) (op.recurrence ws) := by
  intro N i t hi ht
  obtain ⟨e, hget, -⟩ := ht i (N - (i + 1) + 1) (by omega)
  have hcolumn : ∀ k ≤ i, ∃ g, t.get k (N - (i + 1)) = .ok g := by
    intro k hk
    obtain ⟨g, hg, -⟩ := ht k (N - (i + 1)) (by omega)
    exact ⟨g, hg⟩
  obtain ⟨e', he'⟩ := op.addTerms_ok hcolumn 0 ws e
  refine ⟨e', ?_, trivial⟩
  simp only [recurrence, hget, he']

end LieOperator

namespace LieTriangle

variable {C W : Type} [Weight W] [Coefficient C W] {L : LieTriangle C} {f : Tuple C}
  {t : GradedTable (Tuple C)} {s s' : Inverse C} {count N len n : ℕ}

theorem keeps_true (L : LieTriangle C) (f : Tuple C) : L.Keeps f fun _ _ _ => True :=
  ⟨fun _ => trivial, fun _ => trivial, L.operator.recurrence_continues L.generators,
    fun _ _ _ _ _ _ _ _ => trivial⟩

theorem transform_ok (L : LieTriangle C) (f : Tuple C) (order : ℕ) :
    ∃ g, L.transform f order = .ok g := by
  obtain ⟨t, htable, ht⟩ := (L.keeps_true f).table (order + 1)
  obtain ⟨column, hcolumn, -⟩ := ht.firstColumn (Nat.le_refl (order + 1))
  refine ⟨.weightedSum f column, ?_⟩
  simp only [transform, htable, hcolumn]

theorem invert_ok (L : LieTriangle C) (f : Tuple C) (order : ℕ) :
    ∃ g, L.invert f order = .ok g := by
  obtain ⟨s, htable, -⟩ := (L.keeps_true f).inverseTable (order + 1)
  refine ⟨s.subject, ?_⟩
  simp only [invert, htable]

theorem table_emptyFrom (h : L.table f count = .ok t) : t.EmptyFrom count := by
  induction count generalizing t with
  | zero =>
    cases h
    exact .empty
  | succ N ih =>
    rw [table] at h
    split at h
    · cases h
    · rename_i t₀ h₀
      exact (ih h₀).diagonal h

theorem invertStep_emptyFrom (hs : s.table.EmptyFrom N) (h : L.invertStep f N s = .ok s') :
    s'.table.EmptyFrom (N + 1) := by
  unfold invertStep at h
  split at h
  · cases h
  · rename_i t hadd
    split at h
    · cases h
    · cases h
      exact (hs.diagonal hadd).mapDiagonal N _

theorem inverseTable_emptyFrom (h : L.inverseTable f count = .ok s) : s.table.EmptyFrom count := by
  induction count generalizing s with
  | zero =>
    cases h
    exact .empty
  | succ N ih =>
    rw [inverseTable] at h
    split at h
    · cases h
    · rename_i s₀ h₀
      exact invertStep_emptyFrom (ih h₀) h

/-- Forward and backward, after any number of diagonals, the entries of these are there and
homogeneous of degree `i + m`, and no others: on the way back also before the last diagonal is
corrected. -/
structure Homogeneous (L : LieTriangle C) (f : Tuple C) : Prop where
  forward : ∀ count, ∃ t, L.table f count = .ok t ∧
    t.Complete (EntryGraded f.size f.nvars) count
  backward : ∀ count, ∃ s t, L.inverseTable f count = .ok s ∧
    s.table.Complete (EntryGraded f.size f.nvars) count ∧
    L.addDiagonal s.table count (.zeros f.size f.nvars) = .ok t ∧
    t.Complete (EntryGraded f.size f.nvars) (count + 1)

theorem Keeps.homogeneous (h : L.Keeps f (EntryGraded f.size f.nvars)) : L.Homogeneous f where
  forward count := by
    obtain ⟨t, htable, ht⟩ := h.table count
    exact ⟨t, htable, ht.complete (table_emptyFrom htable)⟩
  backward count := by
    obtain ⟨s, htable, hs⟩ := h.inverseTable count
    have hempty := inverseTable_emptyFrom htable
    obtain ⟨t, hadd, ht⟩ := hs.diagonal h.next (h.zeros count)
    exact ⟨s, t, htable, hs.complete hempty, hadd, ht.next.complete (hempty.diagonal hadd)⟩

theorem homogeneous_ofGenerator (op : LieOperator) {U : Tuple C} (hf : f.Framed f.size f.nvars)
    (hU : U.Framed f.nvars f.nvars) (hlen : op = .bracket → f.size = f.nvars) (order : ℕ) :
    (ofGenerator op U order).Homogeneous f :=
  ((graded_ofGenerator op hU hlen order).keeps hf).homogeneous

end LieTriangle

namespace NearIdentity

variable {C W : Type} [Weight W] [Coefficient C W] {t : GradedTable (Tuple C)} {f : Tuple C}
  {i k count : ℕ}

theorem subtractTerms_ok (hcolumn : ∀ j ≤ i, ∃ w, t.get j 0 = .ok w)
    (hbefore : ∀ j ≤ i, ∃ g, t.get j k = .ok g) (hcount : count ≤ i + 1) (e : Tuple C) :
    ∃ e', subtractTerms t i k count e = .ok e' := by
  induction count with
  | zero => exact ⟨e, rfl⟩
  | succ j ih =>
    obtain ⟨e', hok⟩ := ih (by omega)
    obtain ⟨w, hdirection⟩ := hcolumn (i - j) (by omega)
    obtain ⟨g, hterm⟩ := hbefore j (by omega)
    simp only [subtractTerms, hok, hdirection, hterm]
    split
    · exact ⟨e', rfl⟩
    · exact ⟨_, rfl⟩

theorem recurrence_continues :
    GradedTable.Continues (fun _ _ _ => True) (recurrence : GradedTable (Tuple C) → _) := by
  intro N i t hi ht
  have hget : ∀ j m, j + m < N ∨ j + m = N ∧ j < i + 1 → ∃ g, t.get j m = .ok g := by
    intro j m hj
    obtain ⟨g, hg, -⟩ := ht j m hj
    exact ⟨g, hg⟩
  obtain ⟨e, he⟩ := hget i (N - (i + 1) + 1) (by omega)
  obtain ⟨e', he'⟩ := subtractTerms_ok (fun j hj => hget j 0 (by omega))
    (fun j hj => hget j (N - (i + 1)) (by omega)) (Nat.le_refl (i + 1)) e
  refine ⟨e', ?_, trivial⟩
  simp only [recurrence, he, he']

theorem table_emptyFrom (h : table f count = .ok t) : t.EmptyFrom count := by
  induction count generalizing t with
  | zero =>
    cases h
    exact .empty
  | succ N ih =>
    rw [table] at h
    split at h
    · cases h
    · rename_i t₀ h₀
      exact (ih h₀).diagonal h

end NearIdentity

namespace Tuple

variable {C R : Type} [RealNumber R] [Coefficient C R] [Normed C R]

theorem generatorOf_ok {φ : Tuple C} {vars : Variables}
    (hfield : φ.checkField vars .nearIdentityMap = .ok ()) (hnear : φ.checkNearIdentity = .ok ())
    (order : ℕ) : ∃ U, φ.generatorOf vars order = .ok U := by
  obtain ⟨t, htable, ht⟩ :=
    NearIdentity.table_continues (f := φ) (fun _ => trivial) NearIdentity.recurrence_continues
      (order - 1)
  obtain ⟨column, hcolumn, -⟩ := ht.firstColumn (Nat.le_refl (order - 1))
  refine ⟨weightedSum φ column, ?_⟩
  simp only [generatorOf, hfield, hnear, htable, hcolumn]

end Tuple

end LieNormalForm
