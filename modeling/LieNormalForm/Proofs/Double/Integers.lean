import LieNormalForm.Proofs.Double

/-!
# Natural numbers among doubles

A natural number below `2^53` is a double: its mantissa is padded to 53 bits. A product of such
doubles, and a quotient without remainder, is exact as long as all the numbers stay below `2^53`:
the mantissa that is to be rounded is the padded one with further zeros behind it, and rounding
takes these off.
-/

namespace LieNormalForm.Double

open Float.Model UnpackedFloat

theorem log2_mul_two_pow {m : ℕ} (hm : 0 < m) (k : ℕ) : (m * 2 ^ k).log2 = m.log2 + k := by
  have hne : m * 2 ^ k ≠ 0 := (Nat.mul_pos hm k.two_pow_pos).ne'
  obtain ⟨hlow, hhigh⟩ := (Nat.log2_eq_iff hm.ne').1 rfl
  rw [Nat.log2_eq_iff hne, Nat.add_right_comm, Nat.pow_add, Nat.pow_add]
  exact ⟨Nat.mul_le_mul_right _ hlow, Nat.mul_lt_mul_of_pos_right hhigh k.two_pow_pos⟩

theorem log2_le {m : ℕ} (hm : 0 < m) (hlt : m < 2 ^ 53) : m.log2 ≤ 52 :=
  Nat.le_of_lt_succ ((Nat.log2_lt hm.ne').2 hlt)

theorem log2_mul_le {a b : ℕ} (ha : 0 < a) (hb : 0 < b) :
    (a * b).log2 ≤ a.log2 + b.log2 + 1 := by
  have hproduct : a * b < 2 ^ (a.log2 + b.log2 + 2) := by
    calc a * b < 2 ^ (a.log2 + 1) * 2 ^ (b.log2 + 1) :=
          Nat.mul_lt_mul'' Nat.lt_log2_self Nat.lt_log2_self
      _ = 2 ^ (a.log2 + b.log2 + 2) := by rw [← Nat.pow_add]; congr 1; omega
  exact Nat.le_of_lt_succ ((Nat.log2_lt (Nat.mul_pos ha hb).ne').2 hproduct)

/-- The number of zeros behind a natural number that fill its mantissa up to 53 bits. -/
def padding (m : ℕ) : ℕ := 52 - m.log2

/-- A natural number with its mantissa filled up. -/
def padded (m : ℕ) (hm : 0 < m) : UnpackedFloat :=
  .finite .positive (m * 2 ^ padding m) (-(padding m : ℤ)) (Nat.mul_pos hm (Nat.two_pow_pos _))

theorem log2_padded {m : ℕ} (hm : 0 < m) (hlt : m < 2 ^ 53) : (m * 2 ^ padding m).log2 = 52 := by
  have hle := log2_le hm hlt
  rw [log2_mul_two_pow hm, padding]
  omega

theorem padded_bounds {m : ℕ} (hm : 0 < m) (hlt : m < 2 ^ 53) :
    2 ^ 52 ≤ m * 2 ^ padding m ∧ m * 2 ^ padding m < 2 ^ 53 :=
  (Nat.log2_eq_iff (Nat.mul_pos hm (Nat.two_pow_pos _)).ne').1 (log2_padded hm hlt)

/-- Zeros behind a mantissa are taken off without a trace. -/
theorem shiftRight_zeros (m k : ℕ) :
    ExtendedMantissa.ofMantissaAndAccuracy (m * 2 ^ k) .exact >>> k = ⟨m, false, false⟩ := by
  change Nat.repeat ExtendedMantissa.shiftRightOne k _ = _
  have hshift : ∀ i ≤ k, Nat.repeat ExtendedMantissa.shiftRightOne i
      (ExtendedMantissa.ofMantissaAndAccuracy (m * 2 ^ k) .exact) =
        ⟨m * 2 ^ (k - i), false, false⟩ := by
    intro i hi
    induction i with
    | zero => rfl
    | succ i ih =>
      have hsplit : m * 2 ^ (k - i) = 2 * (m * 2 ^ (k - (i + 1))) := by
        rw [show k - i = k - (i + 1) + 1 by omega, Nat.pow_succ]
        ring
      rw [Nat.repeat, ih (by omega), ExtendedMantissa.shiftRightOne, hsplit]
      simp
  rw [hshift k le_rfl, Nat.sub_self, Nat.pow_zero, Nat.mul_one]

/-- Rounding takes the zeros off that a mantissa of 53 bits has no place for. -/
theorem roundWithAccuracy_zeros {m t : ℕ} (hm : 0 < m) (hlt : m < 2 ^ 53) (ht : padding m ≤ t) :
    roundWithAccuracy .binary64 .positive (m * 2 ^ t) (-(t : ℤ)) .exact = padded m hm := by
  have hle := log2_le hm hlt
  have hshift : ∀ k, padding m ≤ k →
      shiftToTargetExponent .binary64 (m * 2 ^ k) (-(k : ℤ)) .exact =
        (⟨m * 2 ^ padding m, false, false⟩, -(padding m : ℤ)) := by
    intro k hk
    have htarget : Format.binary64.targetExponent (totalExponent (m * 2 ^ k) (-(k : ℤ))) =
        -(padding m : ℤ) := by
      simp only [Format.targetExponent, totalExponent, log2_mul_two_pow hm, Format.mantissaBits,
        Format.minExponent, padding]
      omega
    have hamount : (-(padding m : ℤ) - -(k : ℤ)).toNat = k - padding m := by omega
    have hmantissa : m * 2 ^ k = m * 2 ^ padding m * 2 ^ (k - padding m) := by
      rw [Nat.mul_assoc, ← Nat.pow_add, Nat.add_sub_cancel' hk]
    rw [shiftToTargetExponent, htarget, shiftToExponent, hamount, hmantissa, shiftRight_zeros]
    refine congrArg _ ?_
    omega
  have hpositive : m * 2 ^ padding m ≠ 0 := (Nat.mul_pos hm (Nat.two_pow_pos _)).ne'
  have hrounded : (⟨m * 2 ^ padding m, false, false⟩ : ExtendedMantissa).roundedMantissa =
      m * 2 ^ padding m := rfl
  rw [roundWithAccuracy, hshift t ht]
  dsimp only
  rw [hrounded, hshift (padding m) le_rfl]
  exact dif_neg hpositive

/-- The dividend gets 53 more zeros, of which a quotient without remainder keeps `t`. -/
theorem divCore_padded {q b t : ℕ} (hq : 0 < q) (hb : 0 < b) (hlt : q * b < 2 ^ 53)
    (ht : t + (q * b).log2 = 53 + b.log2) :
    divCore .binary64 (q * b * 2 ^ padding (q * b)) (-(padding (q * b) : ℤ))
      (b * 2 ^ padding b) (-(padding b : ℤ)) = (q * 2 ^ t, -(t : ℤ), .exact) := by
  have hpos : 0 < q * b := Nat.mul_pos hq hb
  have hdividend := log2_le hpos hlt
  have hdivisor := log2_le hb (Nat.lt_of_le_of_lt (Nat.le_mul_of_pos_left b hq) hlt)
  have htarget : min (-(padding (q * b) : ℤ) - -(padding b : ℤ)) (Format.binary64.targetExponent
      (totalExponent (q * b * 2 ^ padding (q * b)) (-(padding (q * b) : ℤ)) -
        totalExponent (b * 2 ^ padding b) (-(padding b : ℤ)))) = -(t : ℤ) := by
    simp only [Format.targetExponent, totalExponent, log2_mul_two_pow hpos, log2_mul_two_pow hb,
      Format.mantissaBits, Format.minExponent, padding]
    omega
  have hamount : (-(padding (q * b) : ℤ) - -(padding b : ℤ) - -(t : ℤ)).toNat = 53 := by
    simp only [padding]
    omega
  have hshifted : (q * b * 2 ^ padding (q * b)) <<< 53 = q * 2 ^ t * (b * 2 ^ padding b) := by
    have hzeros : padding (q * b) + 53 = t + padding b := by
      simp only [padding]
      omega
    rw [Nat.shiftLeft_eq, Nat.mul_assoc, ← Nat.pow_add, hzeros, Nat.pow_add,
      Nat.mul_mul_mul_comm]
  have hscale : 0 < b * 2 ^ padding b := Nat.mul_pos hb (Nat.two_pow_pos _)
  rw [divCore, htarget, hamount, hshifted, Nat.mul_div_cancel _ hscale, Nat.mul_mod_left]
  rfl

theorem packComponents_padded {m : ℕ} (hm : 0 < m) (hlt : m < 2 ^ 53) :
    UnpackedFloat.pack .binary64 (padded m hm) = packComponents .binary64 .positive
      (BitVec.ofNat 11 (1075 - padding m)) (BitVec.ofNat 52 (m * 2 ^ padding m)) := by
  have hexponent : (-(padding m : ℤ) + (Format.binary64.exponentBias : ℕ) +
      (Format.binary64.mantissaBitsWithoutImplicit : ℕ)).toNat = 1075 - padding m := by
    simp only [Format.exponentBias]
    omega
  have hbits : (m * 2 ^ padding m).log2 + 1 = Format.binary64.mantissaBits := by
    rw [log2_padded hm hlt]
    rfl
  simp only [padded, UnpackedFloat.pack, hexponent]
  rw [if_neg (by simp; omega), if_pos hbits]

theorem unpack_pack_padded {m : ℕ} (hm : 0 < m) (hlt : m < 2 ^ 53) :
    (Float.Model.pack (padded m hm)).unpack = padded m hm := by
  have hle : padding m ≤ 52 := Nat.sub_le _ _
  obtain ⟨hlow, hhigh⟩ := padded_bounds hm hlt
  have hexponent : (BitVec.ofNat 11 (1075 - padding m)).toNat = 1075 - padding m := by
    rw [BitVec.toNat_ofNat]
    omega
  have hne : ∀ v : BitVec 11, v.toNat ≠ 1075 - padding m →
      BitVec.ofNat 11 (1075 - padding m) ≠ v := by
    rintro v hv rfl
    exact hv hexponent
  have hfinite : BitVec.ofNat 11 (1075 - padding m) ≠ -1#11 := hne _ (by simp; omega)
  have hnormal : BitVec.ofNat 11 (1075 - padding m) ≠ 0#11 := hne _ (by simp; omega)
  have hmantissa : (1#1 ++ BitVec.ofNat 52 (m * 2 ^ padding m)).toNat = m * 2 ^ padding m := by
    rw [BitVec.toNat_append, ← Nat.shiftLeft_add_eq_or_of_lt (BitVec.isLt _), BitVec.toNat_ofNat]
    simp only [BitVec.toNat_ofNat, Nat.shiftLeft_eq]
    omega
  change UnpackedFloat.unpack .binary64 (UnpackedFloat.pack .binary64 (padded m hm)) = _
  rw [packComponents_padded hm hlt]
  simp only [UnpackedFloat.unpack, unpackMantissa_packComponents, unpackExponent_packComponents,
    unpackSign_packComponents, Sign.ofBitVec_toBitVec, hfinite, hnormal, if_false, hmantissa,
    hexponent, padded, Format.exponentBias]
  have hdifference : ((1075 - padding m : ℕ) : ℤ) - (((2 ^ (11 - 1) - 1 : ℕ) : ℤ) + (52 : ℕ)) =
      -(padding m : ℤ) := by omega
  simp only [hdifference]

/-- The double is a positive natural number with at most 53 bits. -/
structure IsWhole (x : Float) (m : ℕ) : Prop where
  pos : 0 < m
  lt : m < 2 ^ 53
  eq : x = .ofModel (pack (padded m pos))

namespace IsWhole

variable {x y : Float} {a b q : ℕ}

theorem unpack (h : IsWhole x a) : x.toModel.unpack = padded a h.pos :=
  (congrArg (fun z : Float => z.toModel.unpack) h.eq).trans (unpack_pack_padded h.pos h.lt)

theorem mul (hx : IsWhole x a) (hy : IsWhole y b) (hlt : a * b < 2 ^ 53) :
    IsWhole (x * y) (a * b) := by
  have hpos : 0 < a * b := Nat.mul_pos hx.pos hy.pos
  have hlog : a.log2 + b.log2 ≤ (a * b).log2 := by
    rw [Nat.le_log2 hpos.ne', Nat.pow_add]
    exact Nat.mul_le_mul ((Nat.le_log2 hx.pos.ne').1 le_rfl) ((Nat.le_log2 hy.pos.ne').1 le_rfl)
  have hpadding : padding (a * b) ≤ padding a + padding b := by
    simp only [padding]
    omega
  refine ⟨hpos, hlt, ?_⟩
  change Float.ofModel (Float.Model.pack (UnpackedFloat.mul .binary64 x.toModel.unpack
    y.toModel.unpack)) = _
  rw [hx.unpack, hy.unpack, ← roundWithAccuracy_zeros hpos hlt hpadding, Nat.pow_add,
    Nat.mul_mul_mul_comm, Nat.cast_add, neg_add]
  rfl

theorem div (hx : IsWhole x (q * b)) (hy : IsWhole y b) : IsWhole (x / y) q := by
  have hpos : 0 < q := Nat.pos_of_mul_pos_right hx.pos
  have hlt : q < 2 ^ 53 := Nat.lt_of_le_of_lt (Nat.le_mul_of_pos_right q hy.pos) hx.lt
  have hlog := log2_mul_le hpos hy.pos
  have hdividend := log2_le hx.pos hx.lt
  obtain ⟨t, ht⟩ : ∃ t, t + (q * b).log2 = 53 + b.log2 :=
    ⟨53 + b.log2 - (q * b).log2, by omega⟩
  have hpadding : padding q ≤ t := by
    simp only [padding]
    omega
  refine ⟨hpos, hlt, ?_⟩
  change Float.ofModel (Float.Model.pack (UnpackedFloat.div .binary64 x.toModel.unpack
    y.toModel.unpack)) = _
  rw [hx.unpack, hy.unpack, ← roundWithAccuracy_zeros hpos hlt hpadding]
  simp only [padded, UnpackedFloat.div, divCore_padded hpos hy.pos hx.lt ht]
  rfl

theorem one : IsWhole 1.0 1 := ⟨Nat.one_pos, by decide, by decide +kernel⟩

theorem toFloat {m : ℕ} (hm : 0 < m) (hlt : m < 2 ^ 53) : IsWhole m.toUInt64.toFloat m := by
  have hle := log2_le hm hlt
  have htoNat : m.toUInt64.toNat = m := UInt64.toNat_ofNat_of_lt' (hlt.trans (by decide))
  have htarget : Format.binary64.targetExponent (totalExponent m 0) = -(padding m : ℤ) := by
    simp only [Format.targetExponent, totalExponent, Format.mantissaBits, Format.minExponent,
      padding]
    omega
  have hamount : (0 - -(padding m : ℤ)).toNat = padding m := by omega
  have hround : UnpackedFloat.round .binary64 .positive m 0 = padded m hm := by
    rw [UnpackedFloat.round, htarget, decreaseExponent, hamount, Nat.shiftLeft_eq]
    simp only [Int.zero_sub]
    exact roundWithAccuracy_zeros hm hlt le_rfl
  refine ⟨hm, hlt, congrArg (fun f => Float.ofModel (Float.Model.pack f)) ?_⟩
  rw [UnpackedFloat.ofUInt64, htoNat, UnpackedFloat.ofNat, UnpackedFloat.ofInt,
    UnpackedFloat.normalize, Int.compare_eq_gt.2 (Int.natCast_pos.2 hm)]
  exact hround

/-- Natural numbers with at most 53 bits are converted without rounding. -/
theorem ofNat {m : ℕ} (hm : 0 < m) (hlt : m < 2 ^ 53) : IsWhole (Float.ofNat m) m := by
  have hproduct : Float.ofNat m = m.toUInt64.toFloat * 1.0 := by
    have hsmall : m < 2 ^ 53 ∧ 0 ≤ 22 := ⟨hlt, Nat.zero_le _⟩
    have hone : Float.exactlyRepresentablePowersOfTen[0] = 1.0 := by decide +kernel
    change Float.ofScientific m false 0 = _
    rw [Float.ofScientific, dif_pos hsmall]
    simp only [hone]
    rfl
  have hwhole := (toFloat hm hlt).mul one (by rwa [Nat.mul_one])
  rwa [Nat.mul_one, ← hproduct] at hwhole

theorem toNat_toBits (h : IsWhole x a) :
    x.toBits.toNat = (1074 - padding a) * 2 ^ 52 + a * 2 ^ padding a := by
  have hle : padding a ≤ 52 := Nat.sub_le _ _
  obtain ⟨hlow, hhigh⟩ := padded_bounds h.pos h.lt
  have hbits : x.toBits.toNat = (packComponents .binary64 .positive
      (BitVec.ofNat 11 (1075 - padding a)) (BitVec.ofNat 52 (a * 2 ^ padding a))).toNat := by
    rw [← packComponents_padded h.pos h.lt]
    exact congrArg (fun z : Float => z.toBits.toNat) h.eq
  have hsign : (Sign.positive.toBitVec).toNat = 0 := rfl
  rw [hbits, packComponents, BitVec.toNat_append,
    ← Nat.shiftLeft_add_eq_or_of_lt (BitVec.isLt _), BitVec.toNat_append,
    ← Nat.shiftLeft_add_eq_or_of_lt (BitVec.isLt _), hsign]
  simp only [BitVec.toNat_ofNat, Nat.shiftLeft_eq]
  omega

theorem dyadic (h : IsWhole x a) : (Dyadic.ofBits x.toBits).m = a * 2 ^ padding a ∧
    (Dyadic.ofBits x.toBits).q = -(padding a : ℤ) := by
  have hle : padding a ≤ 52 := Nat.sub_le _ _
  obtain ⟨hlow, hhigh⟩ := padded_bounds h.pos h.lt
  have hexponent : ((x.toBits >>> 52) &&& 0x7FF).toNat = 1075 - padding a := by
    have hmask : (0x7FF : UInt64).toNat = 2 ^ 11 - 1 := rfl
    have hshift : (52 : UInt64).toNat % 64 = 52 := rfl
    rw [UInt64.toNat_and, UInt64.toNat_shiftRight, hmask, hshift, Nat.and_two_pow_sub_one_eq_mod,
      Nat.shiftRight_eq_div_pow, h.toNat_toBits]
    omega
  have hfraction : (x.toBits &&& 0xFFFFFFFFFFFFF).toNat = a * 2 ^ padding a - 2 ^ 52 := by
    have hmask : (0xFFFFFFFFFFFFF : UInt64).toNat = 2 ^ 52 - 1 := rfl
    rw [UInt64.toNat_and, hmask, Nat.and_two_pow_sub_one_eq_mod, h.toNat_toBits]
    omega
  have hnormal : ¬1075 - padding a = 0 := by omega
  rw [Dyadic.ofBits, hexponent, hfraction, if_neg hnormal]
  have htwo : twoTo 52 = 2 ^ 52 := rfl
  constructor
  · simp only [htwo]
    omega
  · dsimp only
    omega

/-- A double that is a natural number is seen to be one. -/
theorem natValue? (h : IsWhole x a) : natValue? x = some a := by
  obtain ⟨hm, hq⟩ := h.dyadic
  have hnan : x.isNaN = false := congrArg UnpackedFloat.isNaN h.unpack
  have hinf : x.isInf = false := congrArg UnpackedFloat.isInf h.unpack
  have hsign : ¬x < 0.0 := by
    intro hlt
    have hlt : UnpackedFloat.lt x.toModel.unpack (0.0 : Float).toModel.unpack = true :=
      of_decide_eq_true hlt
    rw [h.unpack, unpack_zero] at hlt
    cases hlt
  have hscale : 0 < 2 ^ padding a := Nat.two_pow_pos _
  have hdown : (-(-(padding a : ℤ))).toNat = padding a := by omega
  have hup : (-(padding a : ℤ)).toNat = 0 := by omega
  simp only [Double.natValue?, hnan, hinf, hsign, decide_false, Bool.or_false, Bool.false_eq_true,
    if_false, Dyadic.natValue?, hm, hq, hdown, hup]
  change (if a * 2 ^ padding a % 2 ^ padding a = 0 then
    some (a * 2 ^ padding a / 2 ^ padding a * 2 ^ 0) else none) = _
  rw [Nat.mul_mod_left, if_pos rfl, Nat.mul_div_cancel _ hscale, Nat.pow_zero, Nat.mul_one]

end IsWhole

end LieNormalForm.Double
