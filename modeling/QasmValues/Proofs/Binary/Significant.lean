import QasmValues.Proofs.Rounding
import QasmValues.Proofs.Word

/-! Rounding to significant bits.
A number is rounded to so many significant bits when it is rounded to a multiple of what
its last one counts. Rounding twice, first to more bits and then to fewer, goes wrong only
for a number so near to the middle between two results that the first rounding moves it
there: the second then takes the even one, on whatever side the number was. -/

namespace QasmValues

/-- What the last of `p` significant bits of a number counts. -/
def ulp (p n : Nat) : Nat := twoPow (bitLength n - p)

/-- The number is `n` rounded to `p` significant bits, ties to the even significand. -/
def RoundsTo (p n k : Nat) : Prop :=
  ∃ q, IsNearest n (ulp p n) q ∧ k = q * ulp p n

def roundTo (p n : Nat) : Nat := roundDiv n (ulp p n) * ulp p n

variable {j k m n p r : Nat}

theorem ulp_pos (p n : Nat) : 0 < ulp p n := twoPow_pos _

theorem roundsTo_iff : RoundsTo p n k ↔ roundTo p n = k := by
  constructor
  · rintro ⟨q, nearest, rfl⟩
    rw [roundTo, (isNearest_iff (ulp_pos p n)).mp nearest]
  · rintro rfl
    exact ⟨_, isNearest_roundDiv n (ulp_pos p n), rfl⟩

instance : Decidable (RoundsTo p n k) := decidable_of_iff _ roundsTo_iff.symm

/-! ### The number of bits -/

theorem twoPow_le_iff : twoPow m ≤ n ↔ m < bitLength n := by
  rw [← Nat.not_lt, ← bitLength_le_iff, Nat.not_le]

theorem bitLength_eq_iff : bitLength n = m + 1 ↔ twoPow m ≤ n ∧ n < twoPow (m + 1) := by
  rw [twoPow_le_iff, ← bitLength_le_iff]
  omega

theorem bitLength_twoPow (m : Nat) : bitLength (twoPow m) = m + 1 := by
  have positive := twoPow_pos m
  rw [bitLength_eq_iff, twoPow_succ]
  omega

theorem bitLength_pos_iff : 0 < bitLength n ↔ 0 < n := twoPow_le_iff.symm

theorem bitLength_mul_twoPow (positive : 0 < n) (j : Nat) :
    bitLength (n * twoPow j) = bitLength n + j := by
  obtain ⟨m, length⟩ : ∃ m, bitLength n = m + 1 :=
    Nat.exists_eq_succ_of_ne_zero (Nat.ne_of_gt (bitLength_pos_iff.mpr positive))
  obtain ⟨low, high⟩ := bitLength_eq_iff.mp length
  rw [length, Nat.add_right_comm, bitLength_eq_iff, twoPow_add, Nat.add_right_comm, twoPow_add]
  exact ⟨Nat.mul_le_mul_right _ low, Nat.mul_lt_mul_of_pos_right high (twoPow_pos j)⟩

/-! ### One rounding -/

theorem roundTo_of_le (short : bitLength n ≤ p) : roundTo p n = n := by
  rw [roundTo, ulp, Nat.sub_eq_zero_of_le short, twoPow_zero, Nat.mul_one,
    roundDiv_of_dvd Nat.one_pos (Nat.one_dvd n), Nat.div_one]

@[simp] theorem roundTo_zero (p : Nat) : roundTo p 0 = 0 := roundTo_of_le (Nat.zero_le p)

theorem roundTo_of_ulp_dvd (divides : ulp p n ∣ n) : roundTo p n = n := by
  rw [roundTo, roundDiv_of_dvd (ulp_pos p n) divides, Nat.div_mul_cancel divides]

theorem ulp_dvd_of_le (few : 1 ≤ p) (small : n ≤ twoPow p) : ulp p n ∣ n := by
  obtain rfl | below := Nat.eq_or_lt_of_le small
  · rw [ulp, bitLength_twoPow]
    exact Nat.pow_dvd_pow 2 (by omega)
  · have short := (bitLength_le_iff n p).mpr below
    rw [ulp, Nat.sub_eq_zero_of_le short, twoPow_zero]
    exact Nat.one_dvd n

theorem roundTo_mul_twoPow (p n j : Nat) : roundTo p (n * twoPow j) = roundTo p n * twoPow j := by
  obtain rfl | positive := Nat.eq_zero_or_pos n
  · rw [Nat.zero_mul, roundTo_zero, Nat.zero_mul]
  have length := bitLength_mul_twoPow positive j
  by_cases short : bitLength n ≤ p
  · have divides : ulp p (n * twoPow j) ∣ n * twoPow j := by
      apply Nat.dvd_mul_left_of_dvd
      exact Nat.pow_dvd_pow 2 (by omega)
    rw [roundTo_of_ulp_dvd divides, roundTo_of_le short]
  · have moved : ulp p (n * twoPow j) = ulp p n * twoPow j := by
      unfold ulp
      rw [length, ← twoPow_add]
      congr 1
      omega
    rw [roundTo, moved, roundDiv_mul_right (twoPow_pos j), ← Nat.mul_assoc, roundTo]

theorem roundTo_near (p n : Nat) : 2 * ((n : Int) - roundTo p n).natAbs ≤ ulp p n := by
  have near := (isNearest_roundDiv n (ulp_pos p n)).near
  rwa [← Int.natCast_mul] at near

theorem roundDiv_ulp_le (p n : Nat) : roundDiv n (ulp p n) ≤ twoPow p := by
  apply roundDiv_le_of_le_mul (ulp_pos p n)
  rw [ulp, ← twoPow_add]
  exact Nat.le_trans (Nat.le_of_lt (lt_twoPow_bitLength n)) (twoPow_le_twoPow (by omega))

/-- A number below a power of two rounds up to it if it is no further from it than half of
what the last bit counts there. -/
theorem roundTo_eq_twoPow_iff (few : 1 ≤ p) (below : n < twoPow m) :
    roundTo p n = twoPow m ↔ p < m ∧ twoPow m ≤ n + twoPow (m - p - 1) := by
  have length := (bitLength_le_iff n m).mpr below
  constructor
  · intro up
    have long : p < bitLength n := by
      by_contra short
      rw [roundTo_of_le (Nat.le_of_not_lt short)] at up
      omega
    have near := roundTo_near p n
    have last : ulp p n ≤ 2 * twoPow (m - p - 1) := by
      rw [← twoPow_succ]
      exact twoPow_le_twoPow (by omega)
    omega
  · rintro ⟨room, close⟩
    have last : twoPow (m - p) = 2 * twoPow (m - p - 1) := twoPow_eq_double (by omega)
    have half : twoPow m = 2 * twoPow (m - 1) := twoPow_eq_double (by omega)
    have small : twoPow (m - p - 1) ≤ twoPow (m - 1) := twoPow_le_twoPow (by omega)
    have long : m - 1 < bitLength n := twoPow_le_iff.mp (by omega)
    have here : ulp p n = twoPow (m - p) := by
      rw [ulp]
      congr 1
      omega
    have whole : twoPow p * ulp p n = twoPow m := by
      rw [here]
      exact twoPow_mul_twoPow (by omega)
    apply roundsTo_iff.mp
    refine ⟨twoPow p, ⟨?_, fun _ => ?_⟩, whole.symm⟩
    · rw [← Int.natCast_mul, whole, here]
      omega
    · rw [twoPow_eq_double few]
      exact ⟨_, Nat.two_mul _⟩

theorem bitLength_roundTo (few : 1 ≤ p) (n : Nat) :
    bitLength (roundTo p n) = bitLength n ∨ roundTo p n = twoPow (bitLength n) := by
  obtain long | short := Nat.lt_or_ge p (bitLength n)
  swap
  · rw [roundTo_of_le short]
    exact Or.inl rfl
  obtain ⟨m, length⟩ : ∃ m, bitLength n = m + 1 := Nat.exists_eq_succ_of_ne_zero (by omega)
  have least : twoPow (p - 1) * ulp p n = twoPow m := twoPow_mul_twoPow (by omega)
  have most : twoPow p * ulp p n = twoPow (m + 1) := twoPow_mul_twoPow (by omega)
  have low : twoPow m ≤ roundTo p n := by
    rw [← least]
    apply Nat.mul_le_mul_right
    apply le_roundDiv_of_mul_le (ulp_pos p n)
    rw [least]
    exact (bitLength_eq_iff.mp length).1
  have high : roundTo p n ≤ twoPow (m + 1) := by
    rw [← most]
    exact Nat.mul_le_mul_right _ (roundDiv_ulp_le p n)
  rw [length]
  obtain below | whole := Nat.lt_or_eq_of_le high
  · exact Or.inl (bitLength_eq_iff.mpr ⟨low, below⟩)
  · exact Or.inr whole

theorem bitLength_roundTo_le (few : 1 ≤ p) (n : Nat) :
    bitLength (roundTo p n) ≤ bitLength n + 1 := by
  obtain same | whole := bitLength_roundTo few n
  · rw [same]
    exact Nat.le_succ _
  · rw [whole, bitLength_twoPow]

theorem roundTo_le_twoPow (few : 1 ≤ p) (below : n < twoPow m) : roundTo p n ≤ twoPow m := by
  have length := (bitLength_le_iff n m).mpr below
  obtain same | whole := bitLength_roundTo few n
  · exact Nat.le_of_lt ((bitLength_le_iff _ m).mp (by omega))
  · rw [whole]
    exact twoPow_le_twoPow length

theorem roundTo_pos (few : 1 ≤ p) (positive : 0 < n) : 0 < roundTo p n := by
  rw [← bitLength_pos_iff] at positive ⊢
  obtain same | whole := bitLength_roundTo few n
  · rwa [same]
  · rw [whole, bitLength_twoPow]
    exact Nat.succ_pos _

/-! ### Rounding twice -/

/-- The number has more than `r` bits, and it strays from the middle between two numbers of
`p` bits by no more than half of what the last of `r` bits counts. -/
def Misrounds (p r n : Nat) : Prop :=
  r < bitLength n ∧ Strays (ulp r n) n (ulp p n)

instance : Decidable (Misrounds p r n) := inferInstanceAs (Decidable (_ ∧ _))

theorem roundTo_roundTo_eq (few : 1 ≤ p) (fewer : p ≤ r) (n : Nat) :
    roundTo p (roundTo r n) = roundDiv (roundTo r n) (ulp p n) * ulp p n := by
  obtain same | whole := bitLength_roundTo (Nat.le_trans few fewer) n
  · have equal : ulp p (roundTo r n) = ulp p n := by rw [ulp, same, ulp]
    rw [roundTo, equal]
  · have length := bitLength_twoPow (bitLength n)
    have divides : ulp p n ∣ twoPow (bitLength n) := Nat.pow_dvd_pow 2 (Nat.sub_le _ _)
    have room : ulp p (twoPow (bitLength n)) ∣ twoPow (bitLength n) := by
      rw [ulp, length]
      exact Nat.pow_dvd_pow 2 (by omega)
    rw [whole, roundTo_of_ulp_dvd room, roundDiv_of_dvd (ulp_pos p n) divides,
      Nat.div_mul_cancel divides]

/-- Two roundings are one except next to the middle between two results. -/
theorem roundTo_roundTo (few : 1 ≤ p) (room : p + 2 ≤ r) (n : Nat) :
    roundTo p (roundTo r n) = roundTo p n ↔ ¬ Misrounds p r n := by
  by_cases short : bitLength n ≤ r
  · rw [roundTo_of_le short]
    exact ⟨fun _ misrounds => absurd misrounds.1 (Nat.not_lt.mpr short), fun _ => rfl⟩
  · have long : r < bitLength n := Nat.lt_of_not_le short
    have parts : ulp p n = twoPow (r - p) * ulp r n := (twoPow_mul_twoPow (by omega)).symm
    have four : 4 ∣ twoPow (r - p) := Nat.pow_dvd_pow 2 (show 2 ≤ r - p by omega)
    rw [roundTo_roundTo_eq few (by omega), roundTo, roundTo,
      Nat.mul_left_inj (Nat.ne_of_gt (ulp_pos p n)), Misrounds, and_iff_right long, parts,
      roundDiv_mul_right (ulp_pos r n)]
    exact roundDiv_roundDiv (ulp_pos r n) four (twoPow_pos _)

example : Misrounds 24 53 9007199791611905 := by decide

end QasmValues
