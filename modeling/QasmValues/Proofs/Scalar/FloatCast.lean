import QasmValues.Proofs.Binary.Value
import QasmValues.Proofs.Scalar.Payload

/-! Casts of integers to binary32.
The number goes through binary64, so that it is rounded to 53 bits and the result to 24.
These two roundings are the one that a conversion calls for unless the first moves the
number to the middle between two binary32 numbers. -/

namespace QasmValues.Scalar

variable {v : Scalar} {w : Nat} {n : Int}

theorem natAbs_payload_lt (integer : v.type ∈ ScalarType.integers w)
    (payload : v.payload? = some n) : n.natAbs < twoPow 64 := by
  have word : twoPow 64 = 18446744073709551616 := rfl
  cases v with
  | int m u =>
    obtain rfl : m.toInt = n := Option.some.inj payload
    have low := m.le_toInt
    have high := m.toInt_lt
    omega
  | uint m u =>
    obtain rfl : (m.toNat : Int) = n := Option.some.inj payload
    have high := m.toNat_lt
    omega
  | bool | float | angle | bit | complex | duration | stretch =>
    simp [type, ScalarType.integers] at integer

theorem cast_single (integer : v.type ∈ ScalarType.integers w) (payload : v.payload? = some n) :
    v.cast (.float 32) = .ok (.float (floatOfWidth 32 (floatOfInt n)) 32) := by
  cases v with
  | int m u =>
    obtain rfl : m.toInt = n := Option.some.inj payload
    rfl
  | uint m u =>
    obtain rfl : (m.toNat : Int) = n := Option.some.inj payload
    rfl
  | bool | float | angle | bit | complex | duration | stretch =>
    simp [type, ScalarType.integers] at integer

theorem value_single (word : n.natAbs < twoPow 64) :
    Binary.value? (floatOfWidth 32 (floatOfInt n)) =
      some (n.sign * roundTo 24 (roundTo 53 n.natAbs) : ℚ) := by
  by_cases zero : n = 0
  · have decoded : Binary.ofFloat? (floatOfWidth 32 (floatOfInt 0)) = some ⟨false, 0, -1074⟩ := by
      decide +kernel
    simp [zero, Binary.value?, decoded, Binary.value]
  · obtain ⟨z, normal, equal, sign, magnitude⟩ := exists_single zero word
    rw [equal, Binary.value?_float normal, Binary.value_of_sign zero sign, magnitude]

/-- An integer is converted by two roundings, and the result is the integer rounded once
just when these are as one. -/
theorem cast_single_rounds (integer : v.type ∈ ScalarType.integers w) :
    ∃ (n : Int) (x : Float) (j k : Nat),
      v.payload? = some n ∧ v.cast (.float 32) = .ok (.float x 32) ∧
      Binary.value? x = some (n.sign * k : ℚ) ∧ RoundsTo 53 n.natAbs j ∧ RoundsTo 24 j k ∧
      (RoundsTo 24 n.natAbs k ↔ ¬ Misrounds 24 53 n.natAbs) := by
  obtain ⟨n, payload⟩ := exists_payload (ScalarType.words_of_integers integer)
  have value := value_single (natAbs_payload_lt integer payload)
  refine ⟨n, _, roundTo 53 n.natAbs, _, payload, cast_single integer payload, value,
    roundsTo_iff.mpr rfl, roundsTo_iff.mpr rfl, ?_⟩
  rw [roundsTo_iff, eq_comm]
  exact roundTo_roundTo (by decide) (by decide) n.natAbs

theorem cast_single_rounds_of_tie :
    ScalarType.int 32 ∈ ScalarType.integers 32 ∧
      ∃ x, cast (.int (-16777219) 32) (.float 32) = .ok (.float x 32) ∧
        Binary.value? x = some (-16777220) ∧ RoundsTo 24 16777219 16777220 := by
  have integer : ScalarType.int 32 ∈ ScalarType.integers 32 := by decide
  obtain ⟨n, x, j, k, payload, cast, value, first, second, once⟩ :=
    cast_single_rounds (v := .int (-16777219) 32) integer
  obtain rfl : (-16777219 : Int) = n := Option.some.inj payload
  obtain rfl : 16777219 = j := roundsTo_iff.mp first
  obtain rfl : 16777220 = k := roundsTo_iff.mp second
  have negative : (-16777219 : Int).sign = -1 := rfl
  rw [negative] at value
  exact ⟨integer, x, cast, by simpa using value, second⟩

/-- The first rounding takes the last one from this number and leaves it in the middle. -/
theorem not_rounds_of_fifty_four_bits :
    Fits (.uint 9007199791611905 54) ∧
      cast (.uint 9007199791611905 54) (.float 32) = .ok (.float 9007199254740992 32) ∧
      Binary.value? 9007199254740992 = some 9007199254740992 ∧
      RoundsTo 24 9007199791611905 9007200328482816 ∧
      ¬ RoundsTo 24 9007199791611905 9007199254740992 := by
  refine ⟨by decide, rfl, ?_, by decide, by decide⟩
  have decoded : Binary.ofFloat? 9007199254740992 = some ⟨false, 4503599627370496, 1⟩ := rfl
  rw [Binary.value?, decoded]
  norm_num [Binary.value, Binary.magnitude]

end QasmValues.Scalar
