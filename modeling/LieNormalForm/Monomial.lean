/-!
# Monomials

A monomial is its list of exponents, one for each variable. Monomials are ordered
lexicographically, the order in which the terms of a polynomial are kept.
-/

namespace LieNormalForm

/-- The exponents of `x^α`, first variable first. -/
abbrev Monomial := List Nat

namespace Monomial

/-- The monomial `1` in `n` variables. -/
def one (n : Nat) : Monomial := List.replicate n 0

/-- The coordinate `x_k` among `n` variables. -/
def coordinate (n k : Nat) : Monomial := (List.range n).map fun j => if j = k then 1 else 0

/-- Total degree, the sum of the exponents. -/
def degree (m : Monomial) : Nat := m.foldr (· + ·) 0

/-- The product; of monomials in different numbers of variables only the common ones are kept. -/
def product (m k : Monomial) : Monomial := List.zipWith (· + ·) m k

/-- The exponent of variable `k`, zero beyond the last. -/
def exponent (m : Monomial) (k : Nat) : Nat := m.getD k 0

/-- Takes one power of variable `k` away, unless it does not occur. -/
def lower? (m : Monomial) (k : Nat) : Option Monomial :=
  if m.exponent k = 0 then none else some (m.set k (m.exponent k - 1))

/-- Lexicographic order, a proper beginning first. -/
def order : Monomial → Monomial → Ordering
  | [], [] => .eq
  | [], _ :: _ => .lt
  | _ :: _, [] => .gt
  | a :: m, b :: k => if a < b then .lt else if b < a then .gt else order m k

theorem one_length (n : Nat) : (one n).length = n := List.length_replicate

theorem coordinate_length (n k : Nat) : (coordinate n k).length = n := by simp [coordinate]

theorem product_length {m k : Monomial} (h : m.length = k.length) :
    (product m k).length = m.length := by
  simp [product, h]

theorem lower?_length {m k : Monomial} {j : Nat} (h : m.lower? j = some k) :
    k.length = m.length := by
  unfold lower? at h
  split at h
  · cases h
  · cases h
    simp

theorem degree_cons (a : Nat) (m : Monomial) : degree (a :: m) = a + degree m := by
  rfl

theorem degree_one (n : Nat) : degree (one n) = 0 := by
  induction n with
  | zero => rfl
  | succ n ih =>
    rw [one, List.replicate_succ, degree_cons]
    simpa [one] using ih

theorem degree_product {m k : Monomial} (h : m.length = k.length) :
    degree (product m k) = degree m + degree k := by
  induction m generalizing k with
  | nil => cases k <;> simp_all [degree, product]
  | cons a m ih =>
    cases k with
    | nil => simp at h
    | cons b k =>
      have := ih (k := k) (by simpa using h)
      simp only [product, List.zipWith_cons_cons, degree_cons] at this ⊢
      omega

theorem degree_product_le (m k : Monomial) :
    (m.product k).degree ≤ m.degree + k.degree := by
  induction m generalizing k with
  | nil => simp [product, degree]
  | cons a m ih =>
    cases k with
    | nil => simp [product, degree]
    | cons b k =>
      have hrest := ih k
      simp only [product, List.zipWith_cons_cons, degree_cons] at hrest ⊢
      omega

theorem order_self (m : Monomial) : order m m = .eq := by
  induction m with
  | nil => rfl
  | cons a m ih => simp [order, ih]

theorem order_eq_iff {m k : Monomial} : order m k = .eq ↔ m = k := by
  refine ⟨fun h => ?_, fun h => h ▸ order_self m⟩
  induction m generalizing k with
  | nil => cases k <;> simp_all [order]
  | cons a m ih =>
    cases k with
    | nil => simp [order] at h
    | cons b k =>
      unfold order at h
      split at h
      · cases h
      · split at h
        · cases h
        · rw [ih h, show a = b by omega]

theorem order_swap (m k : Monomial) : order k m = (order m k).swap := by
  induction m generalizing k with
  | nil => cases k <;> rfl
  | cons a m ih =>
    cases k with
    | nil => rfl
    | cons b k =>
      unfold order
      by_cases hab : a < b
      · simp [hab, show ¬b < a by omega]
      · by_cases hba : b < a
        · simp [hab, hba]
        · simp [hab, hba, ih]

theorem order_trans {m k l : Monomial} (h : order m k = .lt) (h' : order k l = .lt) :
    order m l = .lt := by
  induction m generalizing k l with
  | nil =>
    cases k with
    | nil => simp [order] at h
    | cons b k =>
      cases l with
      | nil => simp [order] at h'
      | cons c l => rfl
  | cons a m ih =>
    cases k with
    | nil => simp [order] at h
    | cons b k =>
      cases l with
      | nil => simp [order] at h'
      | cons c l =>
        unfold order at h h' ⊢
        by_cases hab : a < b
        · by_cases hbc : b < c
          · simp [show a < c by omega]
          · by_cases hcb : c < b
            · simp [hbc, hcb] at h'
            · simp [show a < c by omega]
        · by_cases hba : b < a
          · simp [hab, hba] at h
          · have hb : a = b := by omega
            subst hb
            simp only [Nat.lt_irrefl, if_false] at h
            by_cases hac : a < c
            · simp [hac]
            · by_cases hca : c < a
              · simp [hac, hca] at h'
              · simp only [hac, hca, if_false] at h' ⊢
                exact ih h h'

end Monomial

end LieNormalForm
