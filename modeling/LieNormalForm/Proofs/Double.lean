import Mathlib
import LieNormalForm.Proofs.Support.Solver
import LieNormalForm.Double.Complex

/-!
# Zeros among doubles

Two doubles compare equal to zero, the zeros of either sign. A complex number over doubles that
counts as zero therefore has size zero, and every positive tolerance accepts it. A negation changes
the sign of a double and nothing else, so it takes no number to zero or away from it.
-/

namespace LieNormalForm

namespace Double

open Float.Model

theorem unpack_zero : (0.0 : Float).toModel.unpack = .zero .positive := rfl

/-- The bits of a zero are all unset but for the sign. -/
theorem toNat_of_unpack_zero {x : Float} {s : UnpackedFloat.Sign}
    (h : x.toModel.unpack = .zero s) :
    x.toModel.toBits.toNat = 0 ∨ x.toModel.toBits.toNat = 2 ^ 63 := by
  simp only [Float.Model.unpack, UnpackedFloat.unpack] at h
  split at h
  · split at h <;> cases h
  · split at h
    · split at h
      · rename_i hexponent hmantissa
        have hexponent := congrArg BitVec.toNat hexponent
        have hmantissa := congrArg BitVec.toNat hmantissa
        simp [UnpackedFloat.unpackExponent, UnpackedFloat.unpackMantissa] at hexponent hmantissa
        have hbits := x.toModel.toBits.toNat_lt
        omega
      · cases h
    · cases h

theorem eq_of_toBits {x y : Float} (h : x.toModel.toBits.toNat = y.toModel.toBits.toNat) :
    x = y := by
  obtain ⟨⟨a, ha⟩⟩ := x
  obtain ⟨⟨b, hb⟩⟩ := y
  obtain rfl : a = b := UInt64.toNat_inj.1 h
  rfl

theorem eq_zero_of_beq {x : Float} (h : (x == 0.0) = true) : x = 0.0 ∨ x = -0.0 := by
  have hzero : ∃ s, x.toModel.unpack = .zero s := by
    have hbeq : UnpackedFloat.beq x.toModel.unpack (0.0 : Float).toModel.unpack = true := h
    rw [unpack_zero] at hbeq
    cases hx : x.toModel.unpack with
    | zero s => exact ⟨s, rfl⟩
    | notANumber => rw [hx] at hbeq; cases hbeq
    | infinity s => rw [hx] at hbeq; cases s <;> cases hbeq
    | finite s m e hm => rw [hx] at hbeq; cases s <;> cases hbeq
  obtain ⟨s, hs⟩ := hzero
  rcases toNat_of_unpack_zero hs with hbits | hbits
  · exact .inl (eq_of_toBits (hbits.trans (by decide +kernel)))
  · exact .inr (eq_of_toBits (hbits.trans (by decide +kernel)))

/-- The exponent and the mantissa of a double, without its sign. -/
def magnitude (x : Float) : BitVec 11 × BitVec 52 :=
  (@UnpackedFloat.unpackExponent Format.binary64 x.toModel.toBits.toBitVec,
    @UnpackedFloat.unpackMantissa Format.binary64 x.toModel.toBits.toBitVec)

/-- Packed numbers of either sign differ in the sign only. -/
theorem exists_packComponents (spec : Format) (f : UnpackedFloat) :
    ∃ s s' exponent mantissa,
      UnpackedFloat.pack spec f = UnpackedFloat.packComponents spec s exponent mantissa ∧
      UnpackedFloat.pack spec f.neg = UnpackedFloat.packComponents spec s' exponent mantissa := by
  cases f with
  | notANumber => exact ⟨.positive, .positive, _, _, rfl, rfl⟩
  | infinity s => exact ⟨s, -s, _, _, rfl, rfl⟩
  | zero s => exact ⟨s, -s, _, _, rfl, rfl⟩
  | finite s m e hm =>
    simp only [UnpackedFloat.neg, UnpackedFloat.pack]
    split
    · exact ⟨s, -s, _, _, rfl, rfl⟩
    · split <;> exact ⟨s, -s, _, _, rfl, rfl⟩

theorem magnitude_neg (x : Float) : magnitude (-x) = magnitude x := by
  obtain ⟨s, s', exponent, mantissa, hpack, hneg⟩ :=
    exists_packComponents Format.binary64 x.toModel.unpack
  have hx : x.toModel.toBits.toBitVec = UnpackedFloat.packComponents _ s exponent mantissa :=
    (UnpackedFloat.pack_unpack_of_valid x.toModel.valid).symm.trans hpack
  have hnegx : (-x).toModel.toBits.toBitVec = UnpackedFloat.packComponents _ s' exponent mantissa :=
    hneg
  simp only [magnitude, hx, hnegx, UnpackedFloat.unpackExponent_packComponents,
    UnpackedFloat.unpackMantissa_packComponents]

theorem exists_unpack_zero {x : Float} (h : magnitude x = (0, 0)) :
    ∃ s, x.toModel.unpack = .zero s := by
  obtain ⟨hexponent, hmantissa⟩ := Prod.ext_iff.1 h
  simp only [magnitude] at hexponent hmantissa
  simp only [Float.Model.unpack, UnpackedFloat.unpack, hexponent, hmantissa]
  exact ⟨_, rfl⟩

theorem beq_zero_iff (x : Float) : (x == 0.0) = true ↔ magnitude x = (0, 0) := by
  constructor
  · intro h
    rcases eq_zero_of_beq h with rfl | rfl <;> decide +kernel
  · intro h
    obtain ⟨s, hs⟩ := exists_unpack_zero h
    change UnpackedFloat.beq x.toModel.unpack (0.0 : Float).toModel.unpack = true
    rw [hs, unpack_zero]
    cases s <;> rfl

theorem beq_zero_neg (x : Float) : (-x == 0.0) = (x == 0.0) := by
  rw [Bool.eq_iff_iff, beq_zero_iff, beq_zero_iff, magnitude_neg]

theorem hypotenuse_of_isZero {d : FloatComplex} (h : d.isZero = true) :
    hypotenuse d.re d.im = 0.0 := by
  obtain ⟨x, y⟩ := d
  simp only [FloatComplex.isZero, Bool.and_eq_true] at h
  obtain ⟨hx, hy⟩ := h
  rcases eq_zero_of_beq hx with rfl | rfl <;> rcases eq_zero_of_beq hy with rfl | rfl <;>
    decide +kernel

end Double

instance : Poly.NegatesZero FloatComplex where
  isZero_neg c := by
    change (-c.re == 0.0 && -c.im == 0.0) = (c.re == 0.0 && c.im == 0.0)
    rw [Double.beq_zero_neg, Double.beq_zero_neg]

theorem acceptsZeros_exact {C R : Type} [RealNumber R] [Coefficient C R] [Normed C R] :
    AcceptsZeros (ResonanceTest.exact : ResonanceTest C R).zeroTest := fun _ h => h

theorem acceptsZeros_tolerance {epsilon : Float} (h : (0.0 : Float) < epsilon) :
    AcceptsZeros (ResonanceTest.tolerance epsilon : ResonanceTest FloatComplex Float).zeroTest := by
  intro d hd
  have hnorm : Normed.norm d = (0.0 : Float) := Double.hypotenuse_of_isZero hd
  rw [ResonanceTest.zeroTest_tolerance, hnorm]
  exact decide_eq_true h

end LieNormalForm
