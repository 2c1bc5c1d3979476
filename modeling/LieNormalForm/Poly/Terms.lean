import LieNormalForm.Scalar
import LieNormalForm.Monomial

/-!
# Sorted lists of terms

Terms stand in increasing order of their monomials. `mergeTerms` adds the terms of a
second list onto a first one in a single pass: a term whose coefficient is zero adds
nothing, a new monomial is put in its place, and equal monomials are added up and dropped
if the sum is zero. `mergeTerms_eq_foldl` says that this is the same as inserting the terms
of the second list one by one.
-/

namespace LieNormalForm

abbrev Term (C : Type) := Monomial × C

variable {C W : Type} [Coefficient C W]

/-- The terms that count as different from zero. -/
def nonzeroTerms (ts : List (Term C)) : List (Term C) :=
  ts.filter fun t => !Coefficient.isZero t.2

/-- Puts the sum of two terms with one monomial in front of further terms. -/
def addLike (x y : Term C) (rest : List (Term C)) : List (Term C) :=
  if Coefficient.isZero y.2 then x :: rest
  else if Coefficient.isZero (x.2 + y.2) then rest
  else (x.1, x.2 + y.2) :: rest

/-- Merges further terms into `x :: xs`, where `mergeRest` merges into `xs`. -/
def mergeHead (x : Term C) (xs : List (Term C)) (mergeRest : List (Term C) → List (Term C)) :
    List (Term C) → List (Term C)
  | [] => x :: xs
  | y :: ys =>
    match Monomial.order x.1 y.1 with
    | .lt => x :: mergeRest (y :: ys)
    | .eq => addLike x y (mergeRest ys)
    | .gt =>
      if Coefficient.isZero y.2 then mergeHead x xs mergeRest ys
      else y :: mergeHead x xs mergeRest ys

/-- Adds the terms of the second list onto the first. -/
def mergeTerms : List (Term C) → List (Term C) → List (Term C)
  | [] => nonzeroTerms
  | x :: xs => mergeHead x xs (mergeTerms xs)

/-- Adds one term onto a list of terms. -/
def insertTerm (y : Term C) : List (Term C) → List (Term C)
  | [] => if Coefficient.isZero y.2 then [] else [y]
  | x :: xs =>
    match Monomial.order x.1 y.1 with
    | .lt => x :: insertTerm y xs
    | .eq => addLike x y xs
    | .gt => if Coefficient.isZero y.2 then x :: xs else y :: x :: xs

/-- Every monomial of the list lies above `m`. -/
def AllAbove (m : Monomial) (ts : List (Term C)) : Prop := ∀ t ∈ ts, Monomial.order m t.1 = .lt

/-- Increasing order, each monomial once. -/
inductive Sorted : List (Term C) → Prop
  | nil : Sorted []
  | cons (x : Term C) (xs : List (Term C)) : AllAbove x.1 xs → Sorted xs → Sorted (x :: xs)

theorem nonzeroTerms_nil : nonzeroTerms ([] : List (Term C)) = [] := rfl

theorem mergeTerms_nil_left (ys : List (Term C)) : mergeTerms [] ys = nonzeroTerms ys := rfl

theorem mergeTerms_nil_right (xs : List (Term C)) : mergeTerms xs [] = xs := by
  cases xs <;> rfl

theorem mergeTerms_singleton (xs : List (Term C)) (y : Term C) :
    mergeTerms xs [y] = insertTerm y xs := by
  induction xs with
  | nil => simp [mergeTerms, nonzeroTerms, insertTerm, List.filter]; split <;> simp_all
  | cons x xs ih =>
    simp only [mergeTerms, mergeHead, insertTerm, ih, mergeTerms_nil_right]

theorem insertTerm_zero {y : Term C} (h : Coefficient.isZero y.2 = true) (xs : List (Term C)) :
    insertTerm y xs = xs := by
  induction xs with
  | nil => simp [insertTerm, h]
  | cons x xs ih =>
    simp only [insertTerm, addLike, h, ih, if_true]
    split <;> rfl

theorem AllAbove.of_cons {m : Monomial} {x : Term C} {xs : List (Term C)}
    (h : AllAbove m (x :: xs)) : AllAbove m xs :=
  fun t ht => h t (List.mem_cons_of_mem _ ht)

theorem AllAbove.head {m : Monomial} {x : Term C} {xs : List (Term C)}
    (h : AllAbove m (x :: xs)) : Monomial.order m x.1 = .lt :=
  h x (List.mem_cons_self ..)

theorem AllAbove.trans {m k : Monomial} {ts : List (Term C)} (hmk : Monomial.order m k = .lt)
    (h : AllAbove k ts) : AllAbove m ts :=
  fun t ht => Monomial.order_trans hmk (h t ht)

/-- Inserting terms that lie above `x` leaves `x` in front. -/
theorem foldl_insertTerm_above (x : Term C) (xs ys : List (Term C)) (h : AllAbove x.1 ys) :
    ys.foldl (fun ts y => insertTerm y ts) (x :: xs) =
      x :: ys.foldl (fun ts y => insertTerm y ts) xs := by
  induction ys generalizing xs with
  | nil => rfl
  | cons y ys ih =>
    simp only [List.foldl_cons, insertTerm, h.head]
    exact ih _ h.of_cons

theorem foldl_insertTerm_nil {ys : List (Term C)} (h : Sorted ys) :
    ys.foldl (fun ts y => insertTerm y ts) [] = nonzeroTerms ys := by
  induction h with
  | nil => rfl
  | cons y ys hy _ ih =>
    by_cases hz : Coefficient.isZero y.2 = true
    · simpa [insertTerm, nonzeroTerms, hz] using ih
    · simp only [Bool.not_eq_true] at hz
      simp only [List.foldl_cons, insertTerm, hz, Bool.false_eq_true, if_false]
      rw [foldl_insertTerm_above _ _ _ hy, ih]
      simp [nonzeroTerms, hz]

theorem order_lt_of_gt {m k : Monomial} (h : Monomial.order m k = .gt) :
    Monomial.order k m = .lt := by
  rw [Monomial.order_swap, h]
  rfl

/-- Merging is inserting the terms of the second list one by one. -/
theorem mergeTerms_eq_foldl (xs : List (Term C)) {ys : List (Term C)} (h : Sorted ys) :
    mergeTerms xs ys = ys.foldl (fun ts y => insertTerm y ts) xs := by
  induction xs generalizing ys with
  | nil => rw [foldl_insertTerm_nil h, mergeTerms_nil_left]
  | cons x xs ih =>
    induction h with
    | nil => rfl
    | cons y ys hy hys ihy =>
      cases hxy : Monomial.order x.1 y.1 with
      | lt =>
        have hall : AllAbove x.1 (y :: ys) := by
          intro t ht
          rcases List.mem_cons.1 ht with rfl | ht
          · exact hxy
          · exact Monomial.order_trans hxy (hy t ht)
        rw [foldl_insertTerm_above _ _ _ hall]
        simp only [mergeTerms, mergeHead, hxy]
        rw [← ih (.cons y ys hy hys)]
      | eq =>
        have hx : AllAbove x.1 ys := Monomial.order_eq_iff.1 hxy ▸ hy
        have hsum : AllAbove (x.1, x.2 + y.2).1 ys := hx
        simp only [mergeTerms, mergeHead, hxy, List.foldl_cons, insertTerm, addLike]
        by_cases hz : Coefficient.isZero y.2 = true
        · simp only [hz, if_true]
          rw [foldl_insertTerm_above _ _ _ hx, ih hys]
        · simp only [hz, if_false, Bool.false_eq_true]
          by_cases hs : Coefficient.isZero (x.2 + y.2) = true
          · simp only [hs, if_true]
            exact ih hys
          · simp only [hs, if_false, Bool.false_eq_true]
            rw [foldl_insertTerm_above _ _ _ hsum, ih hys]
      | gt =>
        have hmerge : mergeTerms (x :: xs) ys = mergeHead x xs (mergeTerms xs) ys := rfl
        simp only [mergeTerms, mergeHead, hxy, List.foldl_cons, insertTerm]
        by_cases hz : Coefficient.isZero y.2 = true
        · simp only [hz, if_true]
          rw [← hmerge, ihy]
        · simp only [hz, if_false, Bool.false_eq_true]
          rw [foldl_insertTerm_above _ _ _ hy, ← hmerge, ihy]

end LieNormalForm
