import LieNormalForm.Double.Notation
import LieNormalForm.Proofs.Expression.Rendering

/-!
# Rational numbers written as decimals

Rational numbers with finitely many decimal places, written and read like doubles: digits with at
most one point, and a minus sign in front of negative numbers.
-/

namespace LieNormalForm

namespace Decimal

/-- The number of decimal places, if finitely many are enough. -/
def places (x : ℚ) : ℕ := ((List.range (x.den + 1)).find? fun k => x.den ∣ 10 ^ k).getD 0

/-- The digits of the absolute value, with a point in front of the decimal places. -/
def digits (x : ℚ) : List Char :=
  let ds := Nat.toDigits 10 (x.num.natAbs * 10 ^ places x / x.den)
  Double.positionalText false ds (ds.length - places x)

/-- Reads digits with at most one point, at least one digit. -/
def readDigits? (cs : List Char) : Option ℚ :=
  let ds := cs.filter Double.isDecimalDigit
  if ds ≠ [] ∧ cs.count '.' ≤ 1 ∧ cs.all Token.isNumberChar then
    some (Double.digitsValue ds / 10 ^ ((cs.dropWhile (· != '.')).length - 1))
  else none

instance : Numeral ℚ where
  plain x := (if x < 0 then "-" else "") ++ String.ofList (digits x)
  marked x := (if x < 0 then "-" else "") ++ String.ofList (digits x)
  read? text := readDigits? text.toList

theorem digits_neg (x : ℚ) : digits (-x) = digits x := by
  rw [digits, digits, places, places, Rat.den_neg_eq_den, Rat.num_neg_eq_neg_num, Int.natAbs_neg]

theorem plain_eq (x : ℚ) :
    Numeral.plain x = (if x < 0 then "-" else "") ++ String.ofList (digits x) := rfl

theorem legible {x : ℚ} (hx : ¬x < 0) (h : readDigits? (digits x) = some x) :
    Numeral.Legible x := by
  have htext : Numeral.plain x = String.ofList (digits x) := by
    rw [plain_eq, if_neg hx, String.empty_append]
  have hdigits : (digits x).filter Double.isDecimalDigit ≠ [] ∧ (digits x).count '.' ≤ 1 ∧
      (digits x).all Token.isNumberChar := by
    unfold readDigits? at h
    dsimp only at h
    split at h
    · assumption
    · cases h
  refine ⟨fun hempty => hdigits.1 ?_, ?_, ?_⟩
  · rw [htext, String.ofList_eq_empty_iff] at hempty
    rw [hempty, List.filter_nil]
  · rw [htext, String.toList_ofList]
    exact List.all_eq_true.1 hdigits.2.2
  · change readDigits? (Numeral.plain x).toList = some x
    rwa [htext, String.toList_ofList]

theorem printable {x : ℚ} (h : readDigits? (digits x) = some |x|) : Numeral.Printable x where
  legible hlt := by
    have hx : ¬x < 0 := of_decide_eq_false hlt
    exact legible hx (by rwa [abs_of_nonneg (not_lt.1 hx)] at h)
  negative hlt := by
    have hx : x < 0 := of_decide_eq_true hlt
    have hneg : ¬-x < 0 := not_lt.2 (neg_nonneg.2 hx.le)
    refine ⟨?_, legible hneg (by rwa [digits_neg, ← abs_of_neg hx])⟩
    rw [plain_eq, plain_eq, if_pos hx, if_neg hneg, String.empty_append, digits_neg]

theorem isDecimalDigit_toDigits {n : ℕ} {c : Char} (hc : c ∈ Nat.toDigits 10 n) :
    Double.isDecimalDigit c = true :=
  Nat.isDigit_of_mem_toDigits (by decide) (by decide) hc

theorem read?_toString (n : ℕ) : Numeral.read? (toString n) = some (n : ℚ) := by
  change readDigits? (toString n).toList = some (n : ℚ)
  have hvalue : Double.digitsValue (Nat.toDigits 10 n) = n :=
    Nat.ofDigitChars_eq_foldl.symm.trans Nat.ofDigitChars_ten_toDigits
  have hpoint : ∀ c ∈ Nat.toDigits 10 n, c ≠ '.' := by
    rintro c hc rfl
    exact absurd (isDecimalDigit_toDigits hc) (by decide)
  have hnumber : (Nat.toDigits 10 n).all Token.isNumberChar :=
    List.all_eq_true.2 fun c hc => Token.isNumberChar_of_mem_toDigits hc
  have hfilter : (Nat.toDigits 10 n).filter Double.isDecimalDigit = Nat.toDigits 10 n :=
    List.filter_eq_self.2 fun c hc => isDecimalDigit_toDigits hc
  have hdrop : (Nat.toDigits 10 n).dropWhile (· != '.') = [] :=
    List.dropWhile_eq_nil_iff.2 fun c hc => bne_iff_ne.2 (hpoint c hc)
  have hcount : (Nat.toDigits 10 n).count '.' = 0 :=
    List.count_eq_zero.2 fun hc => hpoint '.' hc rfl
  rw [Nat.toString_eq_repr, Nat.toList_repr, readDigits?]
  simp only [hfilter, hdrop, hcount]
  rw [if_pos ⟨Nat.toDigits_ne_nil, Nat.zero_le 1, hnumber⟩, hvalue]
  simp

end Decimal

end LieNormalForm
