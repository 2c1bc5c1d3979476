import LieNormalForm.Poly.Terms

/-!
# Adding rows of terms from left to right

A product adds up many rows of terms, and each starts no lower than the one before. A cursor
keeps the sum cut at the start of the last row: the terms before the cut lie below it and are
not looked at again, unless a row starts lower after all. `addRow_toList` says that adding a
row at the cursor is merging it into the whole sum.
-/

namespace LieNormalForm

/-- A sum of terms, cut in two. -/
structure TermCursor (C : Type) where
  /-- Where the sum is cut. -/
  place : Monomial
  /-- The terms before the cut, the last one first. -/
  passed : List (Term C)
  ahead : List (Term C)

namespace TermCursor

variable {C W : Type} [Coefficient C W]

def empty : TermCursor C := ⟨[], [], []⟩

/-- The whole sum. -/
def toList (c : TermCursor C) : List (Term C) := c.passed.reverseAux c.ahead

/-- Passes the terms that lie below a monomial. -/
def pass (m : Monomial) (passed : List (Term C)) : List (Term C) → TermCursor C
  | [] => ⟨m, passed, []⟩
  | x :: xs =>
    match Monomial.order x.1 m with
    | .lt => pass m (x :: passed) xs
    | _ => ⟨m, passed, x :: xs⟩

/-- Moves the cut to a monomial. -/
def seek (c : TermCursor C) (m : Monomial) : TermCursor C :=
  match Monomial.order c.place m with
  | .gt => pass m [] c.toList
  | _ => pass m c.passed c.ahead

/-- Adds a row of terms, the first of which starts lowest. -/
def addRow (c : TermCursor C) : List (Term C) → TermCursor C
  | [] => c
  | y :: ys =>
    let d := c.seek y.1
    ⟨d.place, d.passed, mergeTerms d.ahead (y :: ys)⟩

/-- What is passed lies below the cut. -/
def Correct (c : TermCursor C) : Prop := ∀ t ∈ c.passed, Monomial.order t.1 c.place = .lt

theorem empty_correct : (empty : TermCursor C).Correct := by simp [empty, Correct]

theorem empty_toList : (empty : TermCursor C).toList = [] := rfl

theorem toList_eq (c : TermCursor C) : c.toList = c.passed.reverse ++ c.ahead :=
  List.reverseAux_eq ..

theorem pass_place (m : Monomial) (passed xs : List (Term C)) : (pass m passed xs).place = m := by
  induction xs generalizing passed with
  | nil => rfl
  | cons x xs ih =>
    simp only [pass]
    split
    · exact ih _
    · rfl

theorem pass_toList (m : Monomial) (passed xs : List (Term C)) :
    (pass m passed xs).toList = passed.reverseAux xs := by
  induction xs generalizing passed with
  | nil => rfl
  | cons x xs ih =>
    simp only [pass]
    split
    · exact ih _
    · rfl

theorem pass_correct {m : Monomial} {passed : List (Term C)} (xs : List (Term C))
    (h : ∀ t ∈ passed, Monomial.order t.1 m = .lt) : (pass m passed xs).Correct := by
  induction xs generalizing passed with
  | nil => exact h
  | cons x xs ih =>
    simp only [pass]
    split
    · rename_i hx
      exact ih (List.forall_mem_cons.2 ⟨hx, h⟩)
    · exact h

theorem seek_place (c : TermCursor C) (m : Monomial) : (c.seek m).place = m := by
  unfold seek
  split <;> exact pass_place ..

theorem seek_toList (c : TermCursor C) (m : Monomial) : (c.seek m).toList = c.toList := by
  unfold seek
  split <;> exact pass_toList ..

theorem seek_correct {c : TermCursor C} (h : c.Correct) (m : Monomial) : (c.seek m).Correct := by
  unfold seek
  split
  · exact pass_correct _ (by simp)
  · rename_i hgt
    refine pass_correct _ fun t ht => ?_
    cases hm : Monomial.order c.place m with
    | lt => exact Monomial.order_trans (h t ht) hm
    | eq => exact Monomial.order_eq_iff.1 hm ▸ h t ht
    | gt => exact absurd hm hgt

/-- Terms below the first one of a row are left in front. -/
theorem mergeTerms_append_below {below : List (Term C)} {y : Term C}
    (h : ∀ t ∈ below, Monomial.order t.1 y.1 = .lt) (xs ys : List (Term C)) :
    mergeTerms (below ++ xs) (y :: ys) = below ++ mergeTerms xs (y :: ys) := by
  induction below with
  | nil => rfl
  | cons t below ih =>
    obtain ⟨ht, hbelow⟩ := List.forall_mem_cons.1 h
    simp only [List.cons_append, mergeTerms, mergeHead, ht, ih hbelow]

/-- Adding a row is merging it into the whole sum. -/
theorem addRow_toList {c : TermCursor C} (h : c.Correct) (ys : List (Term C)) :
    (c.addRow ys).toList = mergeTerms c.toList ys := by
  cases ys with
  | nil => exact (mergeTerms_nil_right _).symm
  | cons y ys =>
    have hbelow := seek_correct h y.1
    unfold Correct at hbelow
    rw [seek_place] at hbelow
    rw [← seek_toList c y.1, toList_eq (c.seek y.1), mergeTerms_append_below
      (fun t ht => hbelow t (List.mem_reverse.1 ht))]
    exact toList_eq _

theorem addRow_correct {c : TermCursor C} (h : c.Correct) (ys : List (Term C)) :
    (c.addRow ys).Correct := by
  cases ys with
  | nil => exact h
  | cons y ys => exact seek_correct h y.1

/-- Adding rows one after the other is merging them in this order. -/
theorem foldl_addRow_toList {α : Type} (f : α → List (Term C)) (xs : List α) {c : TermCursor C}
    (h : c.Correct) :
    (xs.foldl (fun c x => c.addRow (f x)) c).toList =
      xs.foldl (fun acc x => mergeTerms acc (f x)) c.toList := by
  induction xs generalizing c with
  | nil => rfl
  | cons x xs ih => rw [List.foldl_cons, List.foldl_cons, ih (addRow_correct h _), addRow_toList h]

end TermCursor

end LieNormalForm
