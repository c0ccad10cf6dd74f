import QasmValues.Proofs.Binary.Arithmetic
import QasmValues.Scalar

/-! Angles in radians.
The number of parts of a wide angle is rounded to 53 bits before it is divided. Close to a
full turn it becomes the number of parts of a full turn, and the result is one. -/

namespace QasmValues

open Binary (Normal value? power)

namespace Angle

variable {a : Angle} {x : Binary}

/-- The number of parts becomes that of a full turn when it is rounded to 53 bits. -/
def RoundsUp (a : Angle) : Prop :=
  53 < a.width ∧ twoPow a.width ≤ a.raw.toNat + twoPow (a.width - 54)

instance : DecidablePred RoundsUp := fun _ => inferInstanceAs (Decidable (_ ∧ _))

def turnValue : Binary := ⟨false, 7074237752028440, -50⟩

theorem turnValue_normal : turnValue.Normal := by
  refine ⟨?_, ?_, ?_, ?_⟩ <;> decide

theorem turn_eq : turn = turnValue.float := by decide +kernel

theorem parts_eq {width : Nat} (high : width ≤ 64) : parts width = (power width).float := by
  have size : (⟨false, 1, width⟩ : Binary).size = 1 := rfl
  have place : (⟨false, 1, width⟩ : Binary).top = 1 + width := rfl
  have rounded : (⟨false, 1, width⟩ : Binary).round .double = ⟨false, 1, width⟩ :=
    Binary.round_of_size_le (Nat.le_add_left 1 52) (Int.le_trans (by decide) (Int.natCast_nonneg _))
  have filled : (⟨false, 1, width⟩ : Binary).fill = power width := by
    have bits : 1 <<< (53 - 1) >>> (1 - 53) = twoPow 52 := by decide
    have exponent : (1 : Int) + width - 53 = width - 52 := by omega
    rw [Binary.fill, size, place, bits, exponent, power]
  rw [parts, Binary.toFloat_eq_float rounded Nat.one_pos (by omega) (by omega), filled]

/-- A fraction of a turn is far enough from one for its product not to be rounded up. -/
theorem roundTo_mul_turn_lt {n : Nat} (below : n < twoPow 53) :
    roundTo 53 (n * turnValue.significand) < turnValue.significand * twoPow 53 := by
  have near := roundTo_near 53 (n * turnValue.significand)
  have size : twoPow 53 = 9007199254740992 := rfl
  have short : bitLength (n * turnValue.significand) ≤ 106 := by
    rw [bitLength_le_iff]
    exact (Nat.mul_lt_mul'' below turnValue_normal.high : _ < twoPow 53 * twoPow 53)
  have last : ulp 53 (n * turnValue.significand) ≤ twoPow 53 :=
    twoPow_le_twoPow (Nat.sub_le_sub_right short 53)
  simp only [turnValue] at near last ⊢
  omega

theorem magnitude_power_zero : (power 0).magnitude = 1 := by
  norm_num [power, Binary.magnitude, twoPow]

theorem mul_turn_lt (normal : x.Normal) (sign : x.negative = false) (below : x.magnitude < 1)
    (low : -900 ≤ x.exponent) : 0 ≤ x.float * turn ∧ x.float * turn < turn := by
  have fraction : x.exponent ≤ -53 := by
    have whole := Binary.power_normal (k := 0) (by decide) (by decide)
    rw [← magnitude_power_zero, Binary.magnitude_lt_iff normal whole, Binary.Before] at below
    have least := normal.low
    simp only [power] at below
    omega
  have sizes := Binary.size_mul normal turnValue_normal
  have place : (x.mul turnValue).top = (x.mul turnValue).size + (x.exponent - 50) := rfl
  obtain ⟨z, normalZ, equal, signZ, magnitude⟩ :=
    Binary.exists_toFloat (x := x.mul turnValue)
      (Nat.mul_pos normal.positive turnValue_normal.positive) (by omega) (by omega)
  have product : x.float * turn = z.float := by
    rw [turn_eq, Binary.float_mul normal turnValue_normal (by omega) (by omega), equal]
  have signZ' : z.negative = false := by
    rw [signZ, Binary.mul, sign]
    rfl
  have less : z.magnitude < turnValue.magnitude := by
    have bound := roundTo_mul_turn_lt normal.high
    calc z.magnitude
        = roundTo 53 (x.significand * turnValue.significand) * 2 ^ (x.exponent - 50) := magnitude
      _ < (turnValue.significand * twoPow 53 : Nat) * 2 ^ (x.exponent - 50) :=
          mul_lt_mul_of_pos_right (Nat.cast_lt.mpr bound) (zpow_pos two_pos _)
      _ = turnValue.significand * 2 ^ (x.exponent + 3) := by
          have places : (x.exponent + 3 - (x.exponent - 50)).toNat = 53 := by omega
          rw [zpow_eq_twoPow_mul (show x.exponent - 50 ≤ x.exponent + 3 by omega), places,
            Nat.cast_mul, mul_assoc]
      _ ≤ turnValue.magnitude :=
          mul_le_mul_of_nonneg_left
            (zpow_le_zpow_right₀ one_le_two (by simp only [turnValue]; omega)) (Nat.cast_nonneg _)
  rw [product]
  refine ⟨Binary.zero_le_float normalZ signZ', ?_⟩
  rw [turn_eq, Binary.float_lt_iff normalZ turnValue_normal signZ' rfl]
  exact less

/-! ### The fraction of a turn -/

def fraction (a : Angle) : Float := floatOfInt a.raw.toNat / parts a.width

theorem toRadians_eq (a : Angle) : a.toRadians = a.fraction * turn := rfl

theorem one_eq : 1 = (power 0).float := by decide +kernel

theorem one_mul_turn : 1 * turn = turn := by decide +kernel

section
variable (fits : (Scalar.angle a).Fits)
include fits

theorem roundsUp_iff : a.RoundsUp ↔ roundTo 53 a.raw.toNat = twoPow a.width :=
  (roundTo_eq_twoPow_iff (by decide) fits.2).symm

theorem power_width_normal : (power a.width).Normal := by
  obtain ⟨⟨low, high⟩, -⟩ := fits
  simp only [wordWidth] at high
  exact Binary.power_normal (by omega) (by omega)

theorem fraction_of_zero (zero : a.raw.toNat = 0) : a.fraction = 0 := by
  have start : floatOfInt (0 : Nat) = 0 := by decide +kernel
  rw [fraction, zero, start, parts_eq fits.1.2, Binary.zero_div_float (power_width_normal fits) rfl]

/-- The fraction is that of the rounded number of parts: the division loses nothing. -/
theorem exists_fraction (nonzero : a.raw.toNat ≠ 0) :
    ∃ x : Binary, x.Normal ∧ x.negative = false ∧ -900 ≤ x.exponent ∧
      value? (floatOfInt a.raw.toNat) = some (roundTo 53 a.raw.toNat : ℚ) ∧
      a.fraction = x.float ∧ x.magnitude = roundTo 53 a.raw.toNat / 2 ^ a.width := by
  have whole := power_width_normal fits
  obtain ⟨⟨low, high⟩, below⟩ := fits
  have positive : 0 < a.raw.toNat := Nat.pos_of_ne_zero nonzero
  obtain ⟨x, normal, equal, sign, magnitude⟩ :=
    exists_floatOfInt (Int.natCast_ne_zero.mpr nonzero)
      (Nat.lt_of_lt_of_le below (twoPow_le_twoPow high))
  rw [Int.natAbs_natCast] at magnitude
  have first := Binary.top_of_magnitude (roundTo_pos (by decide) positive) magnitude
  have length := bitLength_roundTo_le (p := 53) (by decide) a.raw.toNat
  have short := (bitLength_le_iff a.raw.toNat a.width).mpr below
  have place := normal.top_eq
  have nonneg : x.negative = false := by
    rw [sign]
    exact decide_eq_false (Int.not_lt.mpr (Int.natCast_nonneg _))
  simp only [wordWidth] at high
  refine ⟨x.shift (-a.width), normal.shift (by omega) (by omega), nonneg, ?_, ?_, ?_, ?_⟩
  · simp only [Binary.shift]
    omega
  · rw [equal, Binary.value?_float normal, Binary.value, nonneg, magnitude]
    rfl
  · rw [fraction, equal, parts_eq high, Binary.float_div_power normal whole (by omega) (by omega)]
  · rw [Binary.magnitude_shift, magnitude, zpow_neg, zpow_natCast, div_eq_mul_inv]

theorem value_fraction :
    value? (floatOfInt a.raw.toNat) = some (roundTo 53 a.raw.toNat : ℚ) ∧
      value? a.fraction = some (roundTo 53 a.raw.toNat / 2 ^ a.width : ℚ) := by
  by_cases zero : a.raw.toNat = 0
  · have decoded : Binary.ofFloat? 0 = some ⟨false, 0, -1074⟩ := by decide +kernel
    have start : floatOfInt (0 : Nat) = 0 := by decide +kernel
    rw [fraction_of_zero fits zero, zero, start, roundTo_zero]
    simp [value?, decoded, Binary.value]
  · obtain ⟨x, normal, sign, -, parts, equal, magnitude⟩ := exists_fraction fits zero
    have value : x.value = x.magnitude := by
      rw [Binary.value, sign]
      rfl
    rw [equal, Binary.value?_float normal, value, magnitude]
    exact ⟨parts, rfl⟩

theorem fraction_of_roundsUp (up : a.RoundsUp) : a.fraction = 1 := by
  have nonzero : a.raw.toNat ≠ 0 := by
    intro zero
    have less : twoPow (a.width - 54) < twoPow a.width :=
      Nat.pow_lt_pow_right (by decide) (by have room := up.1; omega)
    have close := up.2
    omega
  obtain ⟨x, normal, sign, -, -, equal, magnitude⟩ := exists_fraction fits nonzero
  have whole := Binary.power_normal (k := 0) (by decide) (by decide)
  have one : x.magnitude = (power 0).magnitude := by
    rw [magnitude, (roundsUp_iff fits).mp up, cast_twoPow, div_self (pow_ne_zero _ two_ne_zero),
      magnitude_power_zero]
  rw [equal, normal.eq_of_magnitude whole sign one, one_eq]

theorem fraction_lt_one (down : ¬ a.RoundsUp) :
    a.fraction < 1 ∧ 0 ≤ a.toRadians ∧ a.toRadians < turn := by
  by_cases zero : a.raw.toNat = 0
  · rw [toRadians_eq, fraction_of_zero fits zero]
    have product : 0 * turn = 0 := by decide +kernel
    rw [product]
    exact ⟨by decide +kernel, by decide +kernel, by decide +kernel⟩
  · obtain ⟨x, normal, sign, exponent, -, equal, magnitude⟩ := exists_fraction fits zero
    have whole := Binary.power_normal (k := 0) (by decide) (by decide)
    have less : x.magnitude < 1 := by
      have count : roundTo 53 a.raw.toNat < twoPow a.width :=
        Nat.lt_of_le_of_ne (roundTo_le_twoPow (by decide) fits.2) (mt (roundsUp_iff fits).mpr down)
      rw [magnitude, div_lt_one₀ (pow_pos two_pos _), ← cast_twoPow]
      exact_mod_cast count
    rw [toRadians_eq, equal]
    refine ⟨?_, mul_turn_lt normal sign less exponent⟩
    rw [one_eq, Binary.float_lt_iff normal whole sign rfl, magnitude_power_zero]
    exact less

/-- The radians of an angle are those of the fraction of a turn that its number of parts has
when it is rounded to 53 bits: they are below a turn unless the number becomes that of a
full turn, and a turn then. -/
theorem toRadians_bounded :
    ∃ k : Nat, RoundsTo 53 a.raw.toNat k ∧ value? (floatOfInt a.raw.toNat) = some (k : ℚ) ∧
      value? a.fraction = some (k / 2 ^ a.width : ℚ) ∧ 0 ≤ a.toRadians ∧
      (¬ a.RoundsUp → a.fraction < 1 ∧ a.toRadians < turn) ∧
      (a.RoundsUp → a.fraction = 1 ∧ a.toRadians = turn) := by
  obtain ⟨start, value⟩ := value_fraction fits
  refine ⟨roundTo 53 a.raw.toNat, roundsTo_iff.mpr rfl, start, value, ?_⟩
  by_cases up : a.RoundsUp
  · have whole := fraction_of_roundsUp fits up
    have radians : a.toRadians = turn := by rw [toRadians_eq, whole, one_mul_turn]
    have nonneg : 0 ≤ turn := by decide +kernel
    exact ⟨radians ▸ nonneg, fun down => absurd up down, fun _ => ⟨whole, radians⟩⟩
  · obtain ⟨below, nonneg, under⟩ := fraction_lt_one fits up
    exact ⟨nonneg, fun _ => ⟨below, under⟩, fun up' => absurd up' up⟩

end

theorem toRadians_bounded_of_fifty_four_bits :
    (Scalar.angle ⟨18014398509481982, 54⟩).Fits ∧
      (⟨18014398509481982, 54⟩ : Angle).toRadians < turn ∧
      (⟨18014398509481983, 54⟩ : Angle).toRadians = turn := by
  have fits : (Scalar.angle ⟨18014398509481982, 54⟩).Fits := by decide
  have fits' : (Scalar.angle ⟨18014398509481983, 54⟩).Fits := by decide
  obtain ⟨-, -, -, -, -, below, -⟩ := toRadians_bounded fits
  obtain ⟨-, -, -, -, -, -, whole⟩ := toRadians_bounded fits'
  exact ⟨fits, (below (by decide)).2, (whole (by decide)).2⟩

/-- The last angle of the widest type is a whole turn. -/
theorem not_lt_turn_of_last :
    (Scalar.angle ⟨18446744073709551615, 64⟩).Fits ∧
      (⟨18446744073709551615, 64⟩ : Angle).toRadians = turn ∧
      ¬ (⟨18446744073709551615, 64⟩ : Angle).toRadians < turn := by
  have radians : (⟨18446744073709551615, 64⟩ : Angle).toRadians = turn := by decide +kernel
  exact ⟨by decide, radians, by rw [radians]; decide +kernel⟩

end Angle
end QasmValues
