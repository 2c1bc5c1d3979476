import LieNormalForm.Graded.Table

/-!
# How far a table is filled

A table is filled to row `r` of the diagonal `n` if every entry of an earlier diagonal, and
every entry of the diagonal `n` in an earlier row, is there and meets its specification. Then
filling rows succeeds as soon as each row can be computed from what was filled before it. A table
holds a property if all the entries have it that are there; a table whose entries are changed one
by one is filled by the changed rule.
-/

namespace LieNormalForm

theorem forall_getElem?_concat {A : Type} {P : Nat → A → Prop} {xs : List A} {x : A}
    (h : ∀ k y, xs[k]? = some y → P k y) (hx : P xs.length x) :
    ∀ k y, (xs ++ [x])[k]? = some y → P k y := by
  intro k y hk
  rcases Nat.lt_trichotomy k xs.length with hlt | rfl | hgt
  · rw [List.getElem?_append_left hlt] at hk
    exact h k y hk
  · rw [List.getElem?_concat_length] at hk
    obtain rfl := Option.some.inj hk
    exact hx
  · rw [List.getElem?_eq_none (by simp; omega)] at hk
    cases hk

namespace GradedTable

variable {E : Type}

/-- The entries before row `r` of the diagonal `n` are there and as specified. -/
def FilledTo (spec : Nat → Nat → E → Prop) (n r : Nat) (t : GradedTable E) : Prop :=
  ∀ i m, i + m < n ∨ i + m = n ∧ i < r → ∃ e, t.get i m = .ok e ∧ spec i m e

namespace FilledTo

variable {spec spec' : Nat → Nat → E → Prop} {n r : Nat} {t : GradedTable E}

theorem empty (spec : Nat → Nat → E → Prop) : (empty : GradedTable E).FilledTo spec 0 0 := by
  intro i m h
  omega

theorem next (h : t.FilledTo spec n (n + 1)) : t.FilledTo spec (n + 1) 0 := by
  intro i m hi
  exact h i m (by omega)

theorem insert (h : t.FilledTo spec n r) (hr : r ≤ n) {e : E} (he : spec r (n - r) e) :
    (t.insert r (n - r) e).FilledTo spec n (r + 1) := by
  intro i m hi
  by_cases hsame : i = r ∧ m = n - r
  · obtain ⟨rfl, rfl⟩ := hsame
    exact ⟨e, (get_ok_iff ..).2 (get?_insert_self ..), he⟩
  · obtain ⟨e', hget, hspec⟩ := h i m (by omega)
    refine ⟨e', (get_ok_iff ..).2 ?_, hspec⟩
    rw [get?_insert, if_neg hsame]
    exact (get_ok_iff ..).1 hget

theorem imp (h : t.FilledTo spec n r)
    (hspec : ∀ i m e, i + m < n ∨ i + m = n ∧ i < r → spec i m e → spec' i m e) :
    t.FilledTo spec' n r := by
  intro i m hi
  obtain ⟨e, hget, he⟩ := h i m hi
  exact ⟨e, hget, hspec i m e hi he⟩

theorem mapDiagonal (h : t.FilledTo spec n (n + 1)) {f : E → E}
    (hbefore : ∀ i m e, i + m < n → spec i m e → spec' i m e)
    (hon : ∀ i m e, i + m = n → spec i m e → spec' i m (f e)) :
    (t.mapDiagonal n f).FilledTo spec' n (n + 1) := by
  intro i m hi
  obtain ⟨e, hget, he⟩ := h i m hi
  have hget := (get_ok_iff ..).1 hget
  by_cases hn : i + m = n
  · refine ⟨f e, (get_ok_iff ..).2 ?_, hon i m e hn he⟩
    rw [get?_mapDiagonal, if_pos hn, hget, Option.map_some]
  · refine ⟨e, (get_ok_iff ..).2 ?_, hbefore i m e (by omega) he⟩
    rw [get?_mapDiagonal, if_neg hn, hget]

theorem fillRows {next : GradedTable E → Nat → Nat → Except Error E} {count : Nat}
    (hnext : ∀ i < count, ∀ t' : GradedTable E, t'.FilledTo spec n (i + 1) →
      ∃ e, next t' i (n - (i + 1)) = .ok e ∧ spec (i + 1) (n - (i + 1)) e)
    (hcount : count ≤ n) (h : t.FilledTo spec n 1) :
    ∃ t', fillRows next n count t = .ok t' ∧ t'.FilledTo spec n (count + 1) := by
  induction count with
  | zero => exact ⟨t, rfl, h⟩
  | succ i ih =>
    obtain ⟨t', hrows, ht'⟩ := ih (fun j hj => hnext j (by omega)) (by omega)
    obtain ⟨e, he, hspec⟩ := hnext i i.lt_succ_self t' ht'
    refine ⟨t'.insert (i + 1) (n - (i + 1)) e, ?_, ht'.insert hcount hspec⟩
    simp only [GradedTable.fillRows, hrows, he]

theorem firstColumn (h : t.FilledTo spec n 0) {count : Nat} (hcount : count ≤ n) :
    ∃ column, t.firstColumn count = .ok column ∧ column.length = count ∧
      ∀ i e, column[i]? = some e → spec i 0 e := by
  induction count with
  | zero => exact ⟨[], rfl, rfl, by simp⟩
  | succ count ih =>
    obtain ⟨above, habove, hlength, hspec⟩ := ih (by omega)
    obtain ⟨e, he, hlast⟩ := h count 0 (by omega)
    refine ⟨above ++ [e], ?_, by simp [hlength], forall_getElem?_concat hspec ?_⟩
    · simp only [GradedTable.firstColumn, habove, he]
    · rwa [hlength]

end FilledTo

/-- A rule that finds what it asks for wherever the table is filled up to the entry to be made, and
that makes the entry as specified. -/
def Continues (spec : Nat → Nat → E → Prop) (next : GradedTable E → Nat → Nat → Except Error E) :
    Prop :=
  ∀ n i (t : GradedTable E), i + 1 ≤ n → t.FilledTo spec n (i + 1) →
    ∃ e, next t i (n - (i + 1)) = .ok e ∧ spec (i + 1) (n - (i + 1)) e

theorem FilledTo.diagonal {spec : Nat → Nat → E → Prop} {n : Nat} {t : GradedTable E}
    {next : GradedTable E → Nat → Nat → Except Error E} (h : t.FilledTo spec n 0)
    (hnext : Continues spec next) {seed : E} (hseed : spec 0 n seed) :
    ∃ t', GradedTable.fillRows next n n (t.insert 0 n seed) = .ok t' ∧
      t'.FilledTo spec n (n + 1) :=
  (h.insert (Nat.zero_le n) hseed).fillRows (fun i hi t' ht' => hnext n i t' hi ht')
    (Nat.le_refl n)

/-- What every row that is filled keeps, filling the rows keeps. -/
theorem fillRows_keeps {P : GradedTable E → Prop} {n count : Nat} {t t' : GradedTable E}
    {next : GradedTable E → Nat → Nat → Except Error E}
    (hinsert : ∀ (t : GradedTable E) i e, i < count → P t → next t i (n - (i + 1)) = .ok e →
      P (t.insert (i + 1) (n - (i + 1)) e))
    (h : P t) (hok : fillRows next n count t = .ok t') : P t' := by
  induction count generalizing t' with
  | zero =>
    cases hok
    exact h
  | succ i ih =>
    simp only [fillRows] at hok
    split at hok
    · cases hok
    · rename_i t₁ hrows
      have hfilled : P t₁ := ih (fun t j e hj => hinsert t j e (Nat.lt_succ_of_lt hj)) hrows
      split at hok
      · cases hok
      · rename_i e he
        cases hok
        exact hinsert t₁ i e i.lt_succ_self hfilled he

/-- Every entry that is there has a property. -/
def Holds (P : E → Prop) (t : GradedTable E) : Prop := ∀ i m e, t.get i m = .ok e → P e

namespace Holds

variable {P : E → Prop} {t : GradedTable E}

theorem empty (P : E → Prop) : (empty : GradedTable E).Holds P := by
  intro i m e h
  rw [get_ok_iff, get?_empty] at h
  cases h

theorem insert (h : t.Holds P) (i m : Nat) {e : E} (he : P e) : (t.insert i m e).Holds P := by
  intro j k e' hget
  rw [get_ok_iff, get?_insert] at hget
  split at hget
  · obtain rfl := Option.some.inj hget
    exact he
  · exact h j k e' ((get_ok_iff ..).2 hget)

theorem fillRows {next : GradedTable E → Nat → Nat → Except Error E} {n count : Nat}
    {t' : GradedTable E}
    (hnext : ∀ (t : GradedTable E) i m e, t.Holds P → next t i m = .ok e → P e)
    (h : t.Holds P) (hok : fillRows next n count t = .ok t') : t'.Holds P :=
  fillRows_keeps (fun t _ e _ ht he => ht.insert _ _ (hnext t _ _ e ht he)) h hok

theorem filledTo {spec : Nat → Nat → E → Prop} {n r : Nat} (h : t.Holds P)
    (ht : t.FilledTo spec n r) : t.FilledTo (fun i m e => spec i m e ∧ P e) n r := by
  intro i m hi
  obtain ⟨e, hget, he⟩ := ht i m hi
  exact ⟨e, hget, he, h i m e hget⟩

theorem firstColumn {count : Nat} {column : List E} (h : t.Holds P)
    (hok : t.firstColumn count = .ok column) : ∀ e ∈ column, P e := by
  induction count generalizing column with
  | zero =>
    cases hok
    simp
  | succ i ih =>
    simp only [GradedTable.firstColumn] at hok
    split at hok
    · cases hok
    · rename_i above habove
      split at hok
      · cases hok
      · rename_i e he
        cases hok
        exact List.forall_mem_append.2 ⟨ih habove, by simpa using h i 0 e he⟩

end Holds

/-- The same entries are there before the diagonal `n`. -/
def Agree (n : Nat) (t t' : GradedTable E) : Prop :=
  ∀ i m, i + m < n → t.get? i m = t'.get? i m

namespace Agree

variable {n k count : Nat} {t t' t'' : GradedTable E}

theorem refl (n : Nat) (t : GradedTable E) : t.Agree n t := fun _ _ _ => rfl

theorem trans (h : t.Agree n t') (h' : t'.Agree n t'') : t.Agree n t'' :=
  fun i m hi => (h i m hi).trans (h' i m hi)

theorem mono (h : t.Agree n t') (hk : k ≤ n) : t.Agree k t' :=
  fun i m hi => h i m (Nat.lt_of_lt_of_le hi hk)

theorem insert (h : t.Agree n t') {i m : Nat} (hi : n ≤ i + m) (e : E) :
    (t.insert i m e).Agree n t' := by
  intro j l hj
  rw [get?_insert, if_neg (by rintro ⟨rfl, rfl⟩; omega)]
  exact h j l hj

theorem fillRows {next : GradedTable E → Nat → Nat → Except Error E} (hn : n ≤ k)
    (hcount : count ≤ k) {t₁ : GradedTable E} (h : t.Agree n t')
    (hok : fillRows next k count t = .ok t₁) : t₁.Agree n t' :=
  fillRows_keeps (P := fun t => t.Agree n t') (fun _ _ e _ ht _ => ht.insert (by omega) e) h hok

theorem firstColumn (h : t.Agree n t') (hcount : count ≤ n) :
    t.firstColumn count = t'.firstColumn count := by
  induction count with
  | zero => rfl
  | succ i ih => simp only [GradedTable.firstColumn, ih (by omega), get, h i 0 (by omega)]

end Agree

theorem fillRows_get_first {next : GradedTable E → Nat → Nat → Except Error E} {n count : Nat}
    {t t' : GradedTable E} (h : fillRows next n count t = .ok t') (m : Nat) :
    t'.get 0 m = t.get 0 m := by
  refine fillRows_keeps (P := fun t' => t'.get 0 m = t.get 0 m) (fun t₁ i e _ ht₁ _ => ?_) rfl h
  rw [get, get?_insert, if_neg (by omega)]
  exact ht₁

/-- Two rules fill in the same if they agree as long as the first row is what it was. -/
theorem fillRows_congr {next next' : GradedTable E → Nat → Nat → Except Error E} {n count : Nat}
    {t : GradedTable E}
    (h : ∀ (t' : GradedTable E) i, i < count → (∀ m, t'.get 0 m = t.get 0 m) →
      next t' i (n - (i + 1)) = next' t' i (n - (i + 1))) :
    fillRows next n count t = fillRows next' n count t := by
  induction count with
  | zero => rfl
  | succ i ih =>
    have hrows := ih fun t' j hj => h t' j (Nat.lt_succ_of_lt hj)
    cases hok : fillRows next' n i t with
    | error e => simp only [fillRows, hrows, hok]
    | ok t' =>
      have hrow := h t' i (Nat.lt_succ_self i) (fillRows_get_first hok)
      simp only [fillRows, hrows, hok, hrow]

theorem firstColumn_take {t : GradedTable E} {count k : Nat} {column : List E}
    (h : t.firstColumn count = .ok column) (hk : k ≤ count) :
    t.firstColumn k = .ok (column.take k) := by
  induction count generalizing column with
  | zero =>
    obtain rfl := Nat.le_zero.1 hk
    rfl
  | succ i ih =>
    rcases Nat.lt_or_ge i k with hik | hki
    · obtain rfl := Nat.le_antisymm hk hik
      rw [h, List.take_of_length_le (Nat.le_of_eq (firstColumn_length h))]
    · simp only [firstColumn] at h
      split at h
      · cases h
      · rename_i above habove
        split at h
        · cases h
        · cases h
          rw [ih habove hki, List.take_append_of_le_length]
          rwa [firstColumn_length habove]

section Map

variable {F : Type} (f : E → F)

/-- The table with every entry changed. -/
def map (t : GradedTable E) : GradedTable F := ⟨t.rows.map fun row => row.map (Option.map f)⟩

theorem getD_map {A B : Type} (g : A → B) (xs : Array A) (k : Nat) (d : A) :
    (xs.map g).getD k (g d) = g (xs.getD k d) := by
  rw [Array.getD_eq_getD_getElem?, Array.getD_eq_getD_getElem?, Array.getElem?_map, Option.getD_map]

theorem putAt_map {A B : Type} (g : A → B) (xs : Array A) (k : Nat) (d x : A) :
    (putAt xs k d x).map g = putAt (xs.map g) k (g d) (g x) := by
  unfold putAt
  split
  · rename_i hk
    rw [dif_pos (by rwa [Array.size_map]), Array.map_set]
  · rename_i hk
    rw [dif_neg (by rwa [Array.size_map]), Array.map_push, Array.map_append, Array.map_replicate,
      Array.size_map]

variable {f}

theorem map_empty : (empty : GradedTable E).map f = empty := by
  rw [map, empty, empty, Array.map_empty]

theorem get?_map (t : GradedTable E) (i m : Nat) : (t.map f).get? i m = (t.get? i m).map f := by
  have hrow := getD_map (fun row => row.map (Option.map f)) t.rows i #[]
  rw [Array.map_empty] at hrow
  have hentry := getD_map (Option.map f) (t.rows.getD i #[]) m none
  rw [Option.map_none] at hentry
  rw [get?, get?, map, hrow, hentry]

theorem get_map (t : GradedTable E) (i m : Nat) : (t.map f).get i m = (t.get i m).map f := by
  rw [get, get, get?_map]
  cases t.get? i m <;> rfl

theorem insert_map (t : GradedTable E) (i m : Nat) (e : E) :
    (t.insert i m e).map f = (t.map f).insert i m (f e) := by
  have hrow := getD_map (fun row => row.map (Option.map f)) t.rows i #[]
  rw [Array.map_empty] at hrow
  simp only [insert, map, putAt_map, hrow, Array.map_empty, Option.map_none, Option.map_some]

/-- A rule that takes changed tables to changed entries fills in the changed table. -/
theorem fillRows_map {P : E → Prop} {next : GradedTable E → Nat → Nat → Except Error E}
    {next' : GradedTable F → Nat → Nat → Except Error F}
    (hnext : ∀ (t : GradedTable E) i m, t.Holds P → next' (t.map f) i m = (next t i m).map f)
    (hholds : ∀ (t : GradedTable E) i m e, t.Holds P → next t i m = .ok e → P e)
    {t : GradedTable E} (ht : t.Holds P) (n count : Nat) :
    fillRows next' n count (t.map f) = (fillRows next n count t).map (map f) := by
  induction count with
  | zero => rfl
  | succ i ih =>
    rw [fillRows, fillRows, ih]
    cases hrows : fillRows next n i t with
    | error e => rfl
    | ok t' =>
      dsimp only [Except.map]
      rw [hnext t' i _ (ht.fillRows hholds hrows)]
      cases next t' i (n - (i + 1)) with
      | error e => rfl
      | ok e => exact congrArg Except.ok (insert_map t' _ _ e).symm

theorem firstColumn_map (t : GradedTable E) (count : Nat) :
    (t.map f).firstColumn count = (t.firstColumn count).map (List.map f) := by
  induction count with
  | zero => rfl
  | succ i ih =>
    rw [firstColumn, firstColumn, ih, get_map]
    cases t.firstColumn i with
    | error e => rfl
    | ok above =>
      cases t.get i 0 with
      | error e => rfl
      | ok e => simp [Except.map]

end Map

end GradedTable

end LieNormalForm
