import Mathlib
import QasmValues.Proofs.Binary.Significant

/-! Normal floats.
A number whose significand has 53 bits is a float as it stands. Conversion to a float brings
every other number to that form, after rounding it to 53 bits. -/

namespace QasmValues
namespace Binary

open Float.Model (UnpackedFloat)
open Float.Model.UnpackedFloat (Sign packComponents unpackSign unpackSign_packComponents
  unpackExponent_packComponents unpackMantissa_packComponents)

/-- The significand has 53 bits, and the exponent is one of a float. -/
structure Normal (x : Binary) : Prop where
  low : twoPow 52 ≤ x.significand
  high : x.significand < twoPow 53
  least : -1074 ≤ x.exponent
  most : x.exponent ≤ 971

def sign (x : Binary) : Sign := if x.negative then .negative else .positive

/-- The bits of a normal number, without the first bit of the significand. -/
def packed (x : Binary) : BitVec 64 :=
  packComponents .binary64 x.sign (BitVec.ofNat 11 (x.exponent + 1075).toNat)
    (BitVec.ofNat 52 x.significand)

def float (x : Binary) : Float := Float.ofBits (UInt64.ofBitVec x.packed)

variable {x y z : Binary}

theorem Normal.positive (normal : x.Normal) : 0 < x.significand :=
  Nat.lt_of_lt_of_le (twoPow_pos 52) normal.low

theorem Normal.size_eq (normal : x.Normal) : x.size = 53 :=
  bitLength_eq_iff.mpr ⟨normal.low, normal.high⟩

theorem toNat_append {m n : Nat} (a : BitVec m) (b : BitVec n) :
    (a ++ b).toNat = a.toNat * twoPow n + b.toNat := by
  rw [BitVec.toNat_append, ← Nat.shiftLeft_add_eq_or_of_lt b.isLt, Nat.shiftLeft_eq]
  rfl

theorem toNat_fraction (normal : x.Normal) :
    (BitVec.ofNat 52 x.significand).toNat = x.significand - twoPow 52 := by
  have low := normal.low
  have high := normal.high
  simp only [twoPow_eq_pow, Nat.pow_eq, Nat.reducePow] at low high ⊢
  rw [BitVec.toNat_ofNat]
  omega

theorem toNat_biased (normal : x.Normal) :
    (BitVec.ofNat 11 (x.exponent + 1075).toNat).toNat = (x.exponent + 1075).toNat := by
  have most := normal.most
  rw [BitVec.toNat_ofNat]
  omega

theorem Normal.toNat_packed (normal : x.Normal) :
    x.packed.toNat = (x.exponent + 1074).toNat * twoPow 52 + x.significand +
      (if x.negative then twoPow 63 else 0) := by
  have low := normal.low
  have least := normal.least
  have leading : x.sign.toBitVec.toNat * twoPow 63 = if x.negative then twoPow 63 else 0 := by
    unfold sign
    cases x.negative <;> rfl
  have above : twoPow 63 = twoPow 11 * twoPow 52 := rfl
  have biased : (x.exponent + 1075).toNat = (x.exponent + 1074).toNat + 1 := by omega
  unfold packed packComponents
  rw [toNat_append, toNat_append, toNat_fraction normal, toNat_biased normal, ← leading, above,
    Nat.add_mul, Nat.mul_assoc, biased, Nat.succ_mul (x.exponent + 1074).toNat]
  omega

theorem unpack_packed (normal : x.Normal) :
    UnpackedFloat.unpack .binary64 x.packed =
      .finite x.sign x.significand x.exponent normal.positive := by
  have low := normal.low
  have least := normal.least
  have most := normal.most
  have biased := toNat_biased normal
  have finite : BitVec.ofNat 11 (x.exponent + 1075).toNat ≠ -1#11 := by
    intro equal
    rw [equal] at biased
    have value : (-1#11).toNat = 2047 := rfl
    omega
  have large : BitVec.ofNat 11 (x.exponent + 1075).toNat ≠ 0#11 := by
    intro equal
    rw [equal] at biased
    have value : (0#11).toNat = 0 := rfl
    omega
  have signed : Sign.ofBitVec (@unpackSign .binary64 x.packed) = x.sign := by
    rw [packed, unpackSign_packComponents, Sign.ofBitVec_toBitVec]
  unfold UnpackedFloat.unpack
  simp only [signed]
  simp only [packed, unpackExponent_packComponents, unpackMantissa_packComponents, biased]
  rw [if_neg finite, if_neg large]
  congr 1
  · rw [toNat_append, toNat_fraction normal]
    have one : (1#1).toNat * twoPow 52 = twoPow 52 := rfl
    omega
  · have bias : (Float.Model.Format.binary64.exponentBias : Int) = 1023 := rfl
    omega

theorem pack_finite (normal : x.Normal) :
    UnpackedFloat.pack .binary64 (.finite x.sign x.significand x.exponent normal.positive) =
      x.packed := by
  have least := normal.least
  have most := normal.most
  have length : x.significand.log2 + 1 = Float.Model.Format.binary64.mantissaBits := by
    change _ = 53
    rw [← normal.size_eq, size, bitLength, if_neg (Nat.ne_of_gt normal.positive)]
  have bias : (Float.Model.Format.binary64.exponentBias : Int) = 1023 := rfl
  have biased : (x.exponent + Float.Model.Format.binary64.exponentBias + (52 : Nat)).toNat =
      (x.exponent + 1075).toNat := by
    omega
  unfold UnpackedFloat.pack
  simp only [biased]
  rw [if_neg (by omega), if_pos length, packed]

theorem float_eq (normal : x.Normal) :
    x.float = .ofModel
      (.pack (.finite x.sign x.significand x.exponent normal.positive)) := by
  rw [float, Float.ofBits, Float.Model.ofBits, UInt64.toBitVec_ofBitVec, unpack_packed normal]

theorem toBits_float (normal : x.Normal) : x.float.toBits = UInt64.ofBitVec x.packed := by
  rw [float_eq normal]
  exact congrArg UInt64.ofBitVec (pack_finite normal)

theorem unpack_float (normal : x.Normal) :
    x.float.toModel.unpack = .finite x.sign x.significand x.exponent normal.positive := by
  have bits : x.float.toModel.toBits = UInt64.ofBitVec x.packed := toBits_float normal
  rw [Float.Model.unpack, bits, UInt64.toBitVec_ofBitVec, unpack_packed normal]

theorem ofFloat?_float (normal : x.Normal) : ofFloat? x.float = some x := by
  have bits : x.float.toBits.toNat = x.packed.toNat := by
    rw [toBits_float normal, UInt64.toNat_ofBitVec]
  obtain ⟨low, high, least, most⟩ := normal
  rw [Normal.toNat_packed ⟨low, high, least, most⟩] at bits
  obtain ⟨negative, significand, exponent⟩ := x
  simp only [twoPow_eq_pow, Nat.pow_eq, Nat.reducePow] at low high least most bits
  have place : (if negative then 9223372036854775808 else 0) =
      negative.toNat * 9223372036854775808 := by
    cases negative <;> rfl
  have flag : negative.toNat ≤ 1 := Bool.toNat_le negative
  rw [place] at bits
  have first : decide (9223372036854775808 ≤
      (exponent + 1074).toNat * 4503599627370496 + significand +
        negative.toNat * 9223372036854775808) = negative := by
    cases negative
    · exact decide_eq_false (by rw [Bool.toNat_false]; omega)
    · exact decide_eq_true (by rw [Bool.toNat_true]; omega)
  have second : ((exponent + 1074).toNat * 4503599627370496 + significand +
      negative.toNat * 9223372036854775808) / 4503599627370496 % 2048 =
        (exponent + 1074).toNat + 1 := by
    omega
  have third : ((exponent + 1074).toNat * 4503599627370496 + significand +
      negative.toNat * 9223372036854775808) % 4503599627370496 =
        significand - 4503599627370496 := by
    omega
  simp only [ofFloat?, bits, twoPow_eq_pow, Nat.pow_eq, Nat.reducePow, first, second, third]
  rw [if_neg (by omega), if_neg (by omega), Option.some.injEq, Binary.mk.injEq]
  exact ⟨rfl, by omega, by omega⟩

/-! ### Conversion to a float -/

def top (x : Binary) : Int := x.size + x.exponent

theorem Normal.top_eq (normal : x.Normal) : x.top = 53 + x.exponent := by
  rw [top, normal.size_eq]
  rfl

def fill (x : Binary) : Binary :=
  ⟨x.negative, x.significand <<< (53 - x.size) >>> (x.size - 53), x.top - 53⟩

theorem size_fill (positive : 0 < x.significand) : x.fill.size = 53 := by
  obtain short | long := Nat.le_total x.size 53
  · rw [fill, size, Nat.sub_eq_zero_of_le short, Nat.shiftRight_zero, Nat.shiftLeft_eq]
    have length := bitLength_mul_twoPow positive (53 - x.size)
    rw [twoPow_eq_pow, Nat.pow_eq] at length
    rw [length]
    exact Nat.add_sub_cancel' short
  · obtain ⟨m, length⟩ : ∃ m, x.size = m + 1 := Nat.exists_eq_add_of_le' (by omega)
    obtain ⟨low, high⟩ := bitLength_eq_iff.mp length
    rw [fill, size, Nat.sub_eq_zero_of_le long, Nat.shiftLeft_zero, Nat.shiftRight_eq_div_pow]
    have least : twoPow 52 * twoPow (x.size - 53) = twoPow m := twoPow_mul_twoPow (by omega)
    have most : twoPow 53 * twoPow (x.size - 53) = twoPow (m + 1) := twoPow_mul_twoPow (by omega)
    rw [← least] at low
    rw [← most] at high
    exact bitLength_eq_iff.mpr
      ⟨(Nat.le_div_iff_mul_le (twoPow_pos _)).mpr low,
        (Nat.div_lt_iff_lt_mul (twoPow_pos _)).mpr high⟩

theorem fill_of_normal (normal : x.Normal) : x.fill = x := by
  simp only [fill, top, normal.size_eq, Nat.sub_self, Nat.shiftLeft_zero, Nat.shiftRight_zero]
  congr 1
  omega

theorem fill_normal (positive : 0 < x.significand) (low : -1021 ≤ x.top) (high : x.top ≤ 1024) :
    x.fill.Normal := by
  obtain ⟨least, most⟩ := bitLength_eq_iff.mp (size_fill positive)
  exact ⟨least, most, by simp only [fill]; omega, by simp only [fill]; omega⟩

theorem magnitudeBits_eq (positive : 0 < x.significand) (low : -1021 ≤ x.top) :
    x.magnitudeBits =
      (x.fill.exponent + 1074).toNat * twoPow 52 + x.fill.significand := by
  have places : min (53 - (x.size : Int)) (x.exponent + 1074) = 53 - x.size := by
    rw [top] at low
    omega
  have exponent : x.exponent - (53 - x.size) = x.top - 53 := by
    rw [top]
    omega
  simp only [magnitudeBits, if_neg (Nat.ne_of_gt positive), places, exponent, fill]
  congr 1
  split
  · have nothing : x.size - 53 = 0 := by omega
    have count : (53 - (x.size : Int)).toNat = 53 - x.size := by omega
    rw [nothing, count, Nat.shiftRight_zero]
  · have nothing : 53 - x.size = 0 := by omega
    have count : (-(53 - (x.size : Int))).toNat = x.size - 53 := by omega
    rw [nothing, count, Nat.shiftLeft_zero]

/-- A number that binary64 can hold becomes the float equal to it. -/
theorem toFloat_eq_float (rounded : x.round .double = y) (positive : 0 < y.significand)
    (low : -1021 ≤ y.top) (high : y.top ≤ 1024) : x.toFloat = y.fill.float := by
  have normal := fill_normal positive low high
  have small : y.overflows .double = false := by
    simp only [overflows, Format.double, Bool.and_eq_false_iff, decide_eq_false_iff_not]
    exact Or.inr (decide_eq_false (Int.not_lt.mpr high))
  have sign : x.negative = y.fill.negative := by
    rw [fill, ← rounded, round_negative]
  have word := normal.toNat_packed
  rw [← magnitudeBits_eq positive low, ← sign] at word
  simp only [toFloat, rounded, small, Bool.false_eq_true, if_false, float]
  rw [← word]
  have same : BitVec.ofNat 64 y.fill.packed.toNat = y.fill.packed := by
    rw [BitVec.ofNat_toNat, BitVec.setWidth_eq]
  exact congrArg (fun b => Float.ofBits (UInt64.ofBitVec b)) same

end Binary
end QasmValues
