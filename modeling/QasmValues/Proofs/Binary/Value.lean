import QasmValues.Proofs.Binary.Normal

/-! The values of binary numbers.
Rounding and conversion are about the value of a number, whatever its significand and
exponent are: in the range of the normal floats both keep so many significant bits. -/

namespace QasmValues

variable {a b p : Nat} {i j : Int}

theorem cast_twoPow (n : Nat) : (twoPow n : ℚ) = 2 ^ n := by
  rw [twoPow_eq_pow, Nat.pow_eq, Nat.cast_pow, Nat.cast_ofNat]

theorem zpow_eq_twoPow_mul (order : i ≤ j) :
    (2 : ℚ) ^ j = twoPow (j - i).toNat * 2 ^ i := by
  rw [cast_twoPow, ← zpow_natCast, ← zpow_add₀ two_ne_zero]
  congr 1
  omega

/-- Two numbers of one value differ by places of their significands. -/
theorem eq_mul_twoPow_of_scaled (order : i ≤ j) (same : (a : ℚ) * 2 ^ i = b * 2 ^ j) :
    a = b * twoPow (j - i).toNat := by
  rw [zpow_eq_twoPow_mul order, ← mul_assoc] at same
  exact_mod_cast mul_right_cancel₀ (zpow_ne_zero i two_ne_zero) same

theorem scaled_of_places {m n : Nat} (k : Int) (places : a * twoPow m = b * twoPow n) :
    (a : ℚ) * 2 ^ (k + m) = b * 2 ^ (k + n) := by
  have power (n : Nat) : (2 : ℚ) ^ (k + n) = twoPow n * 2 ^ k := by
    rw [zpow_eq_twoPow_mul (Int.le_add_of_nonneg_right (Int.natCast_nonneg n))]
    congr 3
    omega
  rw [power, power, ← mul_assoc, ← mul_assoc, ← Nat.cast_mul, ← Nat.cast_mul, places]

theorem roundTo_scaled (p : Nat) (same : (a : ℚ) * 2 ^ i = b * 2 ^ j) :
    (roundTo p a : ℚ) * 2 ^ i = roundTo p b * 2 ^ j := by
  wlog order : i ≤ j generalizing a b i j
  · exact (this same.symm (Int.le_of_lt (Int.not_le.mp order))).symm
  rw [eq_mul_twoPow_of_scaled order same, roundTo_mul_twoPow, zpow_eq_twoPow_mul order,
    Nat.cast_mul, mul_assoc]

theorem bitLength_scaled (positive : 0 < b) (same : (a : ℚ) * 2 ^ i = b * 2 ^ j) :
    (bitLength a : Int) + i = bitLength b + j := by
  have scaled {m n : Nat} {k l : Int} (order : k ≤ l) (positive : 0 < n)
      (same : (m : ℚ) * 2 ^ k = n * 2 ^ l) : (bitLength m : Int) + k = bitLength n + l := by
    rw [eq_mul_twoPow_of_scaled order same, bitLength_mul_twoPow positive]
    omega
  have other : 0 < a := by
    have value : (0 : ℚ) < a * 2 ^ i := by
      rw [same]
      exact mul_pos (Nat.cast_pos.mpr positive) (zpow_pos two_pos j)
    exact_mod_cast pos_of_mul_pos_left value (zpow_nonneg zero_le_two i)
  obtain order | order := Int.le_total i j
  · exact scaled order positive same
  · exact (scaled order other same.symm).symm

namespace Binary

def magnitude (x : Binary) : ℚ := x.significand * 2 ^ x.exponent

def value (x : Binary) : ℚ := if x.negative then -x.magnitude else x.magnitude

def value? (x : Float) : Option ℚ := (ofFloat? x).map value

variable {f : Format} {x y : Binary}

theorem value?_float (normal : x.Normal) : value? x.float = some x.value := by
  rw [value?, ofFloat?_float normal, Option.map_some]

theorem value_of_sign {n : Int} (nonzero : n ≠ 0) (sign : x.negative = decide (n < 0)) :
    x.value = n.sign * x.magnitude := by
  obtain below | above := Int.lt_or_gt_of_ne nonzero
  · rw [value, sign, if_pos (decide_eq_true below), Int.sign_eq_neg_one_of_neg below]
    push_cast
    ring
  · rw [value, sign, if_neg (by simpa using Int.le_of_lt above), Int.sign_eq_one_of_pos above]
    push_cast
    ring

@[simp] theorem magnitude_zero (negative : Bool) (exponent : Int) :
    magnitude ⟨negative, 0, exponent⟩ = 0 := by
  rw [magnitude, Nat.cast_zero, zero_mul]

theorem magnitude_eq_natCast {n : Nat} (magnitude : x.magnitude = n) :
    (x.significand : ℚ) * 2 ^ x.exponent = n * 2 ^ (0 : Int) := by
  rwa [zpow_zero, mul_one]

theorem top_of_magnitude {n : Nat} (positive : 0 < n) (magnitude : x.magnitude = n) :
    x.top = bitLength n :=
  (bitLength_scaled positive (magnitude_eq_natCast magnitude)).trans (Int.add_zero _)

theorem magnitude_fill (divides : ulp 53 x.significand ∣ x.significand) :
    x.fill.magnitude = x.magnitude := by
  have places : x.fill.significand * twoPow (x.size - 53) =
      x.significand * twoPow (53 - x.size) := by
    rw [fill, Nat.shiftRight_eq_div_pow, Nat.shiftLeft_eq]
    exact Nat.div_mul_cancel (Nat.dvd_mul_right_of_dvd divides _)
  have moved := scaled_of_places (x.exponent - (53 - x.size : Nat)) places
  have left : x.exponent - (53 - x.size : Nat) + (x.size - 53 : Nat) = x.fill.exponent := by
    simp only [fill, top]
    omega
  rw [left, Int.sub_add_cancel] at moved
  exact moved

theorem round_of_size_le (short : x.size ≤ f.precision) (least : f.least ≤ x.exponent) :
    x.round f = x := by
  have nothing : max ((x.size : Int) - f.precision) (f.least - x.exponent) ≤ 0 := by omega
  simp only [round, nothing, if_true]

theorem round_eq (range : f.least + f.precision ≤ x.top) :
    x.round f = ⟨x.negative, roundDiv x.significand (ulp f.precision x.significand),
      x.exponent + (x.size - f.precision : Nat)⟩ := by
  have excess : max ((x.size : Int) - f.precision) (f.least - x.exponent) =
      x.size - f.precision := by
    rw [top] at range
    omega
  simp only [round, excess]
  split
  · have nothing : x.size - f.precision = 0 := by omega
    rw [ulp, show bitLength x.significand - f.precision = 0 from nothing, nothing, twoPow_zero,
      roundDiv_of_dvd Nat.one_pos (Nat.one_dvd _), Nat.div_one, Int.natCast_zero, Int.add_zero]
  · have places : (x.size : Int) - f.precision = (x.size - f.precision : Nat) := by omega
    rw [places, Int.toNat_natCast, ulp, size]

theorem magnitude_round (range : f.least + f.precision ≤ x.top) :
    (x.round f).magnitude = roundTo f.precision x.significand * 2 ^ x.exponent := by
  have places : roundDiv x.significand (ulp f.precision x.significand) *
      twoPow (x.size - f.precision) = roundTo f.precision x.significand * twoPow 0 :=
    (Nat.mul_one _).symm
  have scaled := scaled_of_places x.exponent places
  rw [Int.natCast_zero, Int.add_zero] at scaled
  rw [round_eq range, magnitude, scaled]

theorem significand_round_le (range : f.least + f.precision ≤ x.top) :
    (x.round f).significand ≤ twoPow f.precision := by
  rw [round_eq range]
  exact roundDiv_ulp_le f.precision x.significand

variable (several : 1 ≤ f.precision) (positive : 0 < x.significand)
include several positive

theorem significand_round_pos (range : f.least + f.precision ≤ x.top) :
    0 < (x.round f).significand := by
  rw [round_eq range]
  exact Nat.pos_of_mul_pos_right (roundTo_pos several positive)

theorem top_round (range : f.least + f.precision ≤ x.top) :
    (x.round f).top = x.top ∨ (x.round f).top = x.top + 1 := by
  have moved : (x.round f).top = bitLength (roundTo f.precision x.significand) + x.exponent :=
    bitLength_scaled (roundTo_pos several positive) (magnitude_round range)
  rw [moved, top, size]
  obtain same | whole := bitLength_roundTo several x.significand
  · exact Or.inl (by rw [same])
  · rw [whole, bitLength_twoPow]
    exact Or.inr (by omega)

omit several

/-! ### The nearest float -/

theorem fill_round_normal (low : -1021 ≤ x.top) (high : x.top < 1024) :
    (x.round .double).fill.Normal ∧ x.toFloat = (x.round .double).fill.float := by
  have several : 1 ≤ Format.double.precision := by decide
  have tops := top_round several positive low
  have kept := significand_round_pos several positive low
  have below : -1021 ≤ (x.round .double).top := by omega
  have above : (x.round .double).top ≤ 1024 := by omega
  exact ⟨fill_normal kept below above, toFloat_eq_float rfl kept below above⟩

/-- Conversion rounds once, to 53 bits. -/
theorem exists_toFloat (low : -1021 ≤ x.top) (high : x.top < 1024) :
    ∃ z : Binary, z.Normal ∧ x.toFloat = z.float ∧ z.negative = x.negative ∧
      z.magnitude = roundTo 53 x.significand * 2 ^ x.exponent := by
  obtain ⟨normal, equal⟩ := fill_round_normal positive low high
  have divides := ulp_dvd_of_le (by decide) (significand_round_le (f := .double) low)
  refine ⟨_, normal, equal, round_negative .double x, ?_⟩
  rw [magnitude_fill divides]
  exact magnitude_round low

theorem exists_narrow (low : -125 ≤ x.top) (high : x.top < 128) :
    ∃ z : Binary, z.Normal ∧ x.narrow .single = z.float ∧ z.negative = x.negative ∧
      z.magnitude = roundTo 24 x.significand * 2 ^ x.exponent := by
  have several : 1 ≤ Format.single.precision := by decide
  have tops := top_round several positive low
  have kept := significand_round_pos several positive low
  have short : bitLength (x.round .single).significand ≤ 53 := by
    rw [bitLength_le_iff]
    exact Nat.lt_of_le_of_lt (significand_round_le low) (by decide)
  have small : (x.round .single).overflows .single = false := by
    simp only [overflows, Format.single, Bool.and_eq_false_iff]
    exact Or.inr (decide_eq_false (Int.not_lt.mpr (by unfold top Format.single at *; omega)))
  obtain ⟨z, normal, equal, sign, magnitude⟩ := exists_toFloat kept (by omega) (by omega)
  refine ⟨z, normal, ?_, sign.trans (round_negative .single x), ?_⟩
  · simp only [narrow, small, equal, Bool.false_eq_true, if_false]
  · rw [magnitude, roundTo_of_le short]
    exact magnitude_round low

end Binary

/-! ### Integers -/

variable {n : Int} (nonzero : n ≠ 0) (word : n.natAbs < twoPow 64)
include nonzero word

theorem exists_floatOfInt :
    ∃ z : Binary, z.Normal ∧ floatOfInt n = z.float ∧ z.negative = decide (n < 0) ∧
      z.magnitude = roundTo 53 n.natAbs := by
  have positive : 0 < n.natAbs := Int.natAbs_pos.mpr nonzero
  have low := bitLength_pos_iff.mpr positive
  have high := (bitLength_le_iff n.natAbs 64).mpr word
  have range : (Binary.ofInt n).top = bitLength n.natAbs := Int.add_zero _
  obtain ⟨z, normal, equal, sign, magnitude⟩ :=
    Binary.exists_toFloat (x := .ofInt n) positive (by omega) (by omega)
  refine ⟨z, normal, equal, sign, ?_⟩
  rw [magnitude, Binary.ofInt, zpow_zero, mul_one]

/-- An integer becomes a binary32 number through binary64. -/
theorem exists_single :
    ∃ z : Binary, z.Normal ∧ floatOfWidth 32 (floatOfInt n) = z.float ∧
      z.negative = decide (n < 0) ∧ z.magnitude = roundTo 24 (roundTo 53 n.natAbs) := by
  obtain ⟨y, normal, equal, sign, magnitude⟩ := exists_floatOfInt nonzero word
  have positive : 0 < n.natAbs := Int.natAbs_pos.mpr nonzero
  have place := Binary.top_of_magnitude (roundTo_pos (by decide) positive) magnitude
  have high := (bitLength_le_iff n.natAbs 64).mpr word
  have length := bitLength_roundTo_le (p := 53) (by decide) n.natAbs
  obtain ⟨z, normal', equal', sign', magnitude'⟩ :=
    Binary.exists_narrow normal.positive (by omega) (by omega)
  refine ⟨z, normal', ?_, sign'.trans sign, ?_⟩
  · rw [floatOfWidth, if_pos rfl, equal, Binary.onFinite, Binary.ofFloat?_float normal]
    exact equal'
  · rw [magnitude', roundTo_scaled 24 (Binary.magnitude_eq_natCast magnitude), zpow_zero, mul_one]

end QasmValues
