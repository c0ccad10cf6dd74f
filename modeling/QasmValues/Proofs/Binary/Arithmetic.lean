import QasmValues.Proofs.Binary.Value

/-! Arithmetic on normal floats.
The product of two floats is the exact product of their values converted to a float, and so
is the quotient by a power of two. Their order is that of their values. -/

namespace QasmValues
namespace Binary

open Float.Model (UnpackedFloat totalExponent)
open Float.Model.UnpackedFloat (Sign ExtendedMantissa shiftToTargetExponent shiftToExponent
  roundWithAccuracy divCore)
open Float.Model.UnpackedFloat.ExtendedMantissa (ofMantissaAndAccuracy shiftRightOne)

variable {x y : Binary}

/-! ### Rounding by shifts -/

/-- The significand is a quotient rounded down, and its two further bits say how the
remainder compares with half of the divisor. -/
structure Describes (m : ExtendedMantissa) (n d : Nat) : Prop where
  quotient : m.mantissa = n / d
  half : m.roundBit = true ↔ d ≤ 2 * (n % d)
  rest : m.stickyBit = true ↔ 2 * (n % d) ≠ 0 ∧ 2 * (n % d) ≠ d

variable {m : ExtendedMantissa} {n d : Nat}

theorem Describes.shift (before : Describes m n d) (positive : 0 < d) :
    Describes (shiftRightOne m) n (2 * d) := by
  have less : n % d < d := Nat.mod_lt n positive
  have remainder : n % (2 * d) = n % d + d * (n / d % 2) := by
    rw [Nat.mul_comm 2, Nat.mod_mul]
  refine ⟨?_, ?_, ?_⟩
  · rw [shiftRightOne, before.quotient, Nat.div_div_eq_div_mul, Nat.mul_comm]
  · rw [shiftRightOne, bne_iff_ne, before.quotient, remainder]
    obtain even | odd := Nat.mod_two_eq_zero_or_one (n / d)
    · rw [even]
      omega
    · rw [odd]
      omega
  · rw [shiftRightOne, Bool.or_eq_true, before.half, before.rest, remainder]
    obtain even | odd := Nat.mod_two_eq_zero_or_one (n / d)
    · rw [even]
      omega
    · rw [odd]
      omega

theorem describes_shift (n k : Nat) :
    Describes (ofMantissaAndAccuracy n .exact >>> k) n (twoPow k) := by
  induction k with
  | zero =>
    have nothing : n % twoPow 0 = 0 := Nat.mod_one n
    refine ⟨(Nat.div_one n).symm, ?_, ?_⟩
    · rw [nothing]
      exact iff_of_false Bool.false_ne_true (by decide)
    · rw [nothing]
      exact iff_of_false Bool.false_ne_true (by decide)
  | succ k ih =>
    rw [twoPow_succ]
    exact ih.shift (twoPow_pos k)

theorem Describes.roundedMantissa (h : Describes m n d) (positive : 0 < d) :
    m.roundedMantissa = roundDiv n d := by
  have less : n % d < d := Nat.mod_lt n positive
  obtain ⟨quotient, half, rest⟩ := m
  obtain ⟨rfl, above, off⟩ := h
  unfold roundDiv
  cases half <;> cases rest <;> simp only [Bool.false_eq_true, false_iff, true_iff] at above off
  · -- exact
    rw [if_pos (by omega)]
    rfl
  · rw [if_pos (by omega)]
    rfl
  · -- the middle
    change n / d + n / d % 2 = _
    split <;> omega
  · rw [if_neg (by omega)]
    rfl

/-! ### Rounding to a float -/

theorem totalExponent_eq (positive : 0 < x.significand) :
    totalExponent x.significand x.exponent = x.top := by
  rw [totalExponent, top, size, bitLength, if_neg (Nat.ne_of_gt positive)]
  rfl

theorem shiftToTargetExponent_eq (positive : 0 < x.significand) (low : -1021 ≤ x.top) :
    shiftToTargetExponent .binary64 x.significand x.exponent .exact =
      (ofMantissaAndAccuracy x.significand .exact >>> (x.size - 53),
        x.exponent + (x.size - 53 : Nat)) := by
  have target : Float.Model.Format.binary64.targetExponent x.top = x.top - 53 := by
    change max (x.top - 53) (-1074) = _
    omega
  have count : (x.top - 53 - x.exponent).toNat = x.size - 53 := by
    rw [top]
    omega
  simp only [shiftToTargetExponent, totalExponent_eq positive, target, shiftToExponent, count]

/-- A number of at least 53 bits is rounded by two shifts, the second for a significand
that has become the next power of two. -/
theorem roundWithAccuracy_eq (long : 53 ≤ x.size) (low : -1021 ≤ x.top)
    (normal : (x.round .double).fill.Normal) (s : Sign) :
    roundWithAccuracy .binary64 s x.significand x.exponent .exact =
      .finite s (x.round .double).fill.significand (x.round .double).fill.exponent
        normal.positive := by
  have several : 1 ≤ Format.double.precision := by decide
  have positive : 0 < x.significand := bitLength_pos_iff.mp (Nat.lt_of_lt_of_le (by decide) long)
  have tops := top_round several positive low
  have kept := significand_round_pos several positive low
  have first : (ofMantissaAndAccuracy x.significand .exact >>> (x.size - 53)).roundedMantissa =
      (x.round .double).significand := by
    rw [(describes_shift x.significand (x.size - 53)).roundedMantissa (twoPow_pos _),
      round_eq (f := .double) low]
    rfl
  have place : x.exponent + (x.size - 53 : Nat) = (x.round .double).exponent := by
    rw [round_eq (f := .double) low]
    rfl
  have longer : 53 ≤ (x.round .double).size := by
    rw [top, top] at tops
    omega
  have second : (ofMantissaAndAccuracy (x.round .double).significand .exact >>>
      ((x.round .double).size - 53)).mantissa = (x.round .double).fill.significand := by
    rw [(describes_shift _ _).quotient, fill, Nat.sub_eq_zero_of_le longer, Nat.shiftLeft_zero,
      Nat.shiftRight_eq_div_pow]
    rfl
  have final : (x.round .double).exponent + ((x.round .double).size - 53 : Nat) =
      (x.round .double).fill.exponent := by
    simp only [fill, top]
    omega
  have again := shiftToTargetExponent_eq kept (by omega)
  simp only [roundWithAccuracy, shiftToTargetExponent_eq positive low, first, place, again, second,
    final]
  rw [dif_neg (Nat.ne_of_gt normal.positive)]

theorem pack_roundWithAccuracy (long : 53 ≤ x.size) (low : -1021 ≤ x.top) (high : x.top < 1024) :
    Float.ofModel (.pack (roundWithAccuracy .binary64 x.sign x.significand x.exponent .exact)) =
      x.toFloat := by
  have positive : 0 < x.significand := bitLength_pos_iff.mp (Nat.lt_of_lt_of_le (by decide) long)
  obtain ⟨normal, equal⟩ := fill_round_normal positive low high
  have sign : (x.round .double).fill.sign = x.sign := by
    rw [fill, Binary.sign, round_negative, Binary.sign]
  rw [equal, float_eq normal, roundWithAccuracy_eq long low normal]
  simp only [sign]

/-! ### Operations -/

def mul (x y : Binary) : Binary :=
  ⟨x.negative ^^ y.negative, x.significand * y.significand, x.exponent + y.exponent⟩

theorem size_mul (hx : x.Normal) (hy : y.Normal) : 105 ≤ (mul x y).size ∧ (mul x y).size ≤ 106 := by
  constructor
  · exact twoPow_le_iff.mp (Nat.mul_le_mul hx.low hy.low : twoPow 52 * twoPow 52 ≤ _)
  · exact (bitLength_le_iff _ 106).mpr
      (Nat.mul_lt_mul'' hx.high hy.high : _ < twoPow 53 * twoPow 53)

theorem float_mul (hx : x.Normal) (hy : y.Normal) (low : -1021 ≤ (mul x y).top)
    (high : (mul x y).top < 1024) : x.float * y.float = (mul x y).toFloat := by
  have long : 53 ≤ (mul x y).size := Nat.le_trans (by decide) (size_mul hx hy).1
  have sign : x.sign * y.sign = (mul x y).sign := by
    unfold mul Binary.sign
    cases x.negative <;> cases y.negative <;> rfl
  rw [← pack_roundWithAccuracy long low high, ← sign]
  change Float.ofModel (.pack (UnpackedFloat.mul .binary64 x.float.toModel.unpack
    y.float.toModel.unpack)) = _
  rw [unpack_float hx, unpack_float hy]
  rfl

def shift (x : Binary) (k : Int) : Binary := ⟨x.negative, x.significand, x.exponent + k⟩

theorem magnitude_shift (x : Binary) (k : Int) : (x.shift k).magnitude = x.magnitude * 2 ^ k := by
  rw [magnitude, magnitude, shift, zpow_add₀ two_ne_zero, mul_assoc]

theorem Normal.shift {k : Int} (normal : x.Normal) (low : -1074 ≤ x.exponent + k)
    (high : x.exponent + k ≤ 971) : (x.shift k).Normal :=
  ⟨normal.low, normal.high, low, high⟩

def power (k : Int) : Binary := ⟨false, twoPow 52, k - 52⟩

theorem power_normal {k : Int} (low : -1022 ≤ k) (high : k ≤ 1023) : (power k).Normal :=
  ⟨Nat.le_refl _, Nat.pow_lt_pow_right (by decide) (by decide), by simp only [power]; omega,
    by simp only [power]; omega⟩

theorem top_power {k : Int} (normal : (power k).Normal) : (power k).top = k + 1 := by
  rw [top, normal.size_eq]
  simp only [power]
  omega

/-- One bit more than the number has is computed of the quotient by a power of two, and
nothing remains. -/
theorem divCore_power {k : Int} (hx : x.Normal) (hk : (power k).Normal)
    (low : -1020 ≤ x.top - k) :
    divCore .binary64 x.significand x.exponent (power k).significand (power k).exponent =
      (x.significand * 2, x.exponent - k - 1, .exact) := by
  have place := hx.top_eq
  have target : min (x.exponent - (power k).exponent)
      (Float.Model.Format.binary64.targetExponent (x.top - (k + 1))) = x.exponent - k - 1 := by
    change min (x.exponent - (k - 52)) (max (x.top - (k + 1) - 53) (-1074)) = _
    omega
  have count : (x.exponent - (power k).exponent - (x.exponent - k - 1)).toNat = 53 := by
    simp only [power]
    omega
  have shifted : x.significand <<< 53 = x.significand * 2 * twoPow 52 := by
    rw [Nat.shiftLeft_eq, Nat.mul_assoc]
    rfl
  simp only [divCore, totalExponent_eq hx.positive, totalExponent_eq hk.positive, top_power hk,
    target, count, shifted]
  simp only [power, Nat.mul_div_cancel _ (twoPow_pos 52), Nat.mul_mod_left]
  rfl

def double (x : Binary) : Binary := ⟨x.negative, x.significand * 2, x.exponent - 1⟩

theorem size_double (normal : x.Normal) : x.double.size = 54 := by
  have length := bitLength_mul_twoPow normal.positive 1
  rw [show bitLength x.significand = 53 from normal.size_eq] at length
  exact length

theorem top_double (normal : x.Normal) : x.double.top = x.top := by
  rw [top, size_double normal, normal.top_eq]
  simp only [double]
  omega

theorem round_double (normal : x.Normal) : x.double.round .double = x := by
  have length : bitLength (x.significand * 2) = 54 := size_double normal
  have last : ulp 53 (x.significand * 2) = 2 := by
    rw [ulp, length]
    rfl
  have significand : roundDiv (x.significand * 2) 2 = x.significand := by
    rw [roundDiv_of_dvd (by decide) (Nat.dvd_mul_left 2 _), Nat.mul_div_cancel _ (by decide)]
  have range : -1021 ≤ x.double.top := by
    rw [top_double normal, normal.top_eq]
    have least := normal.least
    omega
  rw [round_eq (f := .double) range, size_double normal]
  simp only [double, Format.double, last, significand]
  congr 1
  omega

theorem toFloat_double (normal : x.Normal) : x.double.toFloat = x.float := by
  have least := normal.least
  have most := normal.most
  have place := normal.top_eq
  rw [toFloat_eq_float (round_double normal) normal.positive (by omega) (by omega),
    fill_of_normal normal]

theorem float_div_power {k : Int} (hx : x.Normal) (hk : (power k).Normal)
    (low : -1073 ≤ x.exponent - k) (high : x.exponent - k ≤ 970) :
    x.float / (power k).float = (x.shift (-k)).float := by
  have hy : (x.shift (-k)).Normal := hx.shift (by omega) (by omega)
  have place := hx.top_eq
  have size := size_double hy
  have exponent : (x.shift (-k)).exponent = x.exponent - k := Int.sub_eq_add_neg.symm
  have same : (x.shift (-k)).double.top = 53 + (x.exponent - k) := by
    rw [top_double hy, hy.top_eq, exponent]
  have sign : x.sign / (power k).sign = (x.shift (-k)).double.sign := by
    unfold double shift Binary.sign
    cases x.negative <;> rfl
  rw [← toFloat_double hy, ← pack_roundWithAccuracy (by omega) (by omega) (by omega), ← sign]
  change Float.ofModel (.pack (UnpackedFloat.div .binary64 x.float.toModel.unpack
    (power k).float.toModel.unpack)) = _
  rw [unpack_float hx, unpack_float hk]
  simp only [UnpackedFloat.div, divCore_power hx hk (by omega), double, exponent]
  rfl

/-! ### Order -/

theorem lt_iff_compare {a b : Float} :
    a < b ↔ a.toModel.unpack.compare b.toModel.unpack = some .lt := by
  change decide ((a.toModel.unpack.compare b.toModel.unpack == some .lt) = true) = true ↔ _
  rw [decide_eq_true_iff, beq_iff_eq]

/-- The exponent decides, and between numbers of one exponent the significand. -/
def Before (x y : Binary) : Prop :=
  x.exponent < y.exponent ∨ x.exponent = y.exponent ∧ x.significand < y.significand

theorem Before.magnitude_lt (before : Before x y) (hx : x.Normal) (hy : y.Normal) :
    x.magnitude < y.magnitude := by
  obtain less | ⟨same, less⟩ := before
  · calc x.magnitude < (twoPow 53 : ℚ) * 2 ^ x.exponent :=
          mul_lt_mul_of_pos_right (Nat.cast_lt.mpr hx.high) (zpow_pos two_pos _)
      _ = twoPow 52 * 2 ^ (x.exponent + 1) := by
          rw [zpow_add_one₀ two_ne_zero, twoPow_succ]
          push_cast
          ring
      _ ≤ twoPow 52 * 2 ^ y.exponent :=
          mul_le_mul_of_nonneg_left (zpow_le_zpow_right₀ one_le_two less) (Nat.cast_nonneg _)
      _ ≤ y.magnitude :=
          mul_le_mul_of_nonneg_right (Nat.cast_le.mpr hy.low) (zpow_nonneg zero_le_two _)
  · rw [magnitude, magnitude, same]
    exact mul_lt_mul_of_pos_right (Nat.cast_lt.mpr less) (zpow_pos two_pos _)

theorem magnitude_lt_iff (hx : x.Normal) (hy : y.Normal) :
    x.magnitude < y.magnitude ↔ Before x y := by
  refine ⟨fun less => ?_, fun before => before.magnitude_lt hx hy⟩
  by_contra other
  have cases : Before y x ∨ x.exponent = y.exponent ∧ x.significand = y.significand := by
    unfold Before at *
    omega
  obtain after | ⟨exponent, significand⟩ := cases
  · exact lt_asymm less (after.magnitude_lt hy hx)
  · rw [magnitude, magnitude, exponent, significand] at less
    exact lt_irrefl _ less

theorem sign_eq_positive (sign : x.negative = false) : x.sign = .positive := by
  rw [Binary.sign, sign]
  rfl

theorem float_lt_iff (hx : x.Normal) (hy : y.Normal) (signX : x.negative = false)
    (signY : y.negative = false) : x.float < y.float ↔ x.magnitude < y.magnitude := by
  rw [lt_iff_compare, unpack_float hx, unpack_float hy, magnitude_lt_iff hx hy, Before,
    sign_eq_positive signX, sign_eq_positive signY]
  simp only [UnpackedFloat.compare, Option.some.injEq, Ordering.then_eq_lt, Int.compare_eq_lt,
    Nat.compare_eq_lt, compare_eq_iff_eq]

theorem Normal.eq_of_magnitude (hx : x.Normal) (hy : y.Normal) (sign : x.negative = y.negative)
    (value : x.magnitude = y.magnitude) : x = y := by
  have left : ¬ Before x y := fun before => (before.magnitude_lt hx hy).ne value
  have right : ¬ Before y x := fun before => (before.magnitude_lt hy hx).ne value.symm
  unfold Before at left right
  have exponent : x.exponent = y.exponent := by omega
  have significand : x.significand = y.significand := by omega
  obtain ⟨_, _, _⟩ := x
  obtain ⟨_, _, _⟩ := y
  exact Binary.mk.injEq .. ▸ ⟨sign, significand, exponent⟩

/-! ### Zero -/

theorem unpack_zero : (0 : Float).toModel.unpack = .zero .positive := by
  have bits : (0 : Float) = Float.ofBits 0 := by decide +kernel
  rw [bits]
  rfl

theorem pack_zero : Float.ofModel (.pack (.zero .positive)) = 0 := by
  decide +kernel

variable (normal : x.Normal) (sign : x.negative = false)
include normal sign

theorem zero_div_float : 0 / x.float = 0 := by
  change Float.ofModel (.pack (UnpackedFloat.div .binary64 (0 : Float).toModel.unpack
    x.float.toModel.unpack)) = _
  rw [unpack_zero, unpack_float normal, sign_eq_positive sign]
  exact pack_zero

theorem zero_le_float : 0 ≤ x.float := by
  change decide (((0 : Float).toModel.unpack.compare x.float.toModel.unpack).any (·.isLE) = true) =
    true
  rw [unpack_zero, unpack_float normal, sign_eq_positive sign]
  rfl

end Binary
end QasmValues
