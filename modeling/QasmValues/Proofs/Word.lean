import Mathlib.Data.List.GetD
import QasmValues.Bits
import QasmValues.Word

/-! Ranges of words.
A shift is a product or a quotient of a power of two and a mask the remainder by one, so
that a wrapped number is the one of its width that is congruent. What it, the width of a
number and the number of a bit string say about a range is bounded by a power of two. -/

namespace QasmValues

theorem twoPow_eq_double {n : Nat} (h : 1 ≤ n) : twoPow n = 2 * twoPow (n - 1) := by
  rw [← twoPow_succ, Nat.sub_add_cancel h]

theorem twoPow_mul_twoPow {m n k : Nat} (sum : m + n = k) : twoPow m * twoPow n = twoPow k := by
  rw [← twoPow_add, sum]

theorem twoPow_dvd_twoPow {m n : Nat} (h : m ≤ n) : (twoPow m : Int) ∣ twoPow n :=
  Int.natCast_dvd_natCast.mpr (Nat.pow_dvd_pow 2 h)

theorem twoPow_le_word {n : Nat} (h : n ≤ 64) : twoPow n ≤ 18446744073709551616 :=
  twoPow_le_twoPow h

theorem toInt_add_of_inWord {m n : Int64} (room : InWord (m.toInt + n.toInt)) :
    (m + n).toInt = m.toInt + n.toInt := by
  obtain ⟨low, high⟩ := room
  have word : twoPow 63 = 9223372036854775808 := rfl
  rw [Int64.toInt_add, Int.bmod_eq_of_le] <;> omega

theorem toInt_ofInt_of_inWord {n : Int} (room : InWord n) : (Int64.ofInt n).toInt = n := by
  obtain ⟨low, high⟩ := room
  have word : twoPow 63 = 9223372036854775808 := rfl
  rw [Int64.toInt_ofInt_of_le] <;> omega

theorem toNat_ofNat_of_lt_twoPow {n width : Nat} (high : width ≤ 64) (h : n < twoPow width) :
    (UInt64.ofNat n).toNat = n :=
  UInt64.toNat_ofNat_of_lt' (Nat.lt_of_lt_of_le h (twoPow_le_word high))

theorem toNat_ofNat_shift {k : Nat} (h : k < 64) : (UInt64.ofNat k).toNat % 64 = k := by
  have small : k < UInt64.size := Nat.lt_trans h (by decide)
  rw [UInt64.toNat_ofNat_of_lt' small, Nat.mod_eq_of_lt h]

theorem toNat_shiftLeft (word : UInt64) {k : Nat} (h : k < 64) :
    (word <<< UInt64.ofNat k).toNat = word.toNat * twoPow k % twoPow 64 := by
  rw [UInt64.toNat_shiftLeft, toNat_ofNat_shift h, Nat.shiftLeft_eq]
  rfl

theorem toNat_shiftRight (word : UInt64) {k : Nat} (h : k < 64) :
    (word >>> UInt64.ofNat k).toNat = word.toNat / twoPow k := by
  rw [UInt64.toNat_shiftRight, toNat_ofNat_shift h, Nat.shiftRight_eq_div_pow]
  rfl

theorem toNat_widthMask {width : Nat} (h : width ≤ 64) :
    (widthMask width).toNat = twoPow width - 1 := by
  unfold widthMask
  split
  · obtain rfl : width = 64 := by omega
    rfl
  · have low : width < 64 := by omega
    have double := twoPow_le_twoPow (Nat.succ_le_of_lt low)
    have positive := twoPow_pos width
    rw [twoPow_succ] at double
    have word : twoPow 64 = 18446744073709551616 := rfl
    have one : ((1 : UInt64) <<< UInt64.ofNat width).toNat = twoPow width := by
      rw [toNat_shiftLeft 1 low, UInt64.toNat_one, Nat.one_mul, Nat.mod_eq_of_lt (by omega)]
    rw [UInt64.toNat_sub_of_le, one]
    · rfl
    · rw [UInt64.le_iff_toNat_le, one]
      exact positive

theorem toNat_and_widthMask (word : UInt64) {width : Nat} (h : width ≤ 64) :
    (word &&& widthMask width).toNat = word.toNat % twoPow width := by
  rw [UInt64.toNat_and, toNat_widthMask h]
  exact Nat.and_two_pow_sub_one_eq_mod word.toNat width

theorem toNat_word_ofInt (n : Int) : ((UInt64.ofInt n).toNat : Int) = n % twoPow 64 := by
  have words : (twoPow 64 : Int) = 2 ^ 64 := rfl
  have h0 := Int.emod_nonneg n (b := 2 ^ 64) (by decide)
  have h1 := Int.emod_lt_of_pos n (b := 2 ^ 64) (by decide)
  rw [words, UInt64.ofInt, UInt64.toNat_ofNat_of_lt']
  · omega
  · simp only [UInt64.size]
    omega

theorem toInt_shiftRight (word : Int64) {k : Nat} (h : k < 64) :
    (word >>> Int64.ofNat k).toInt = word.toInt / twoPow k := by
  have counts : ∀ k < 64, ((Int64.ofNat k).toBitVec.smod 64).toNat = k := by decide
  have count := counts k h
  rw [← Int64.toInt_toBitVec, Int64.toBitVec_shiftRight, BitVec.sshiftRight_eq', count,
    BitVec.toInt_sshiftRight, Int.shiftRight_eq_div_pow, Int64.toInt_toBitVec]
  rfl

theorem toInt_toInt64_shiftLeft (word : UInt64) {k : Nat} (h : k < 64) :
    (word <<< UInt64.ofNat k).toInt64.toInt = (word.toNat * twoPow k : Int).bmod (twoPow 64) := by
  rw [← Int64.toInt_toBitVec, UInt64.toBitVec_toInt64, BitVec.toInt_eq_toNat_bmod,
    UInt64.toNat_toBitVec, toNat_shiftLeft word h, Int.natCast_emod, Int.natCast_mul]
  exact Int.emod_bmod _ _

theorem toInt_signExtend (word : UInt64) {width : Nat} (low : 1 ≤ width) (high : width ≤ 64) :
    (signExtend word width).toInt = (word.toNat : Int).bmod (twoPow width) := by
  unfold signExtend
  split
  · obtain rfl : width = 64 := by omega
    rw [← Int64.toInt_toBitVec, UInt64.toBitVec_toInt64, BitVec.toInt_eq_toNat_bmod]
    rfl
  · have less : 64 - width < 64 := by omega
    have positive := twoPow_pos (64 - width)
    have even : 2 ∣ twoPow width := ⟨_, twoPow_eq_double low⟩
    have words : twoPow 64 = twoPow (64 - width) * twoPow width := by
      rw [← twoPow_add, Nat.sub_add_cancel high]
    rw [toInt_shiftRight _ less, toInt_toInt64_shiftLeft word less, words, Int.mul_comm,
      Int.mod_bmod_mul_of_pos _ _ positive even, Int.mul_ediv_cancel_left _ (by omega)]

theorem toInt_wrapInt (n : Int) {width : Nat} (low : 1 ≤ width) (high : width ≤ 64) :
    (wrapInt width n).toInt = n.bmod (twoPow width) := by
  have divides := twoPow_dvd_twoPow high
  rw [wrapInt, toInt_signExtend _ low high, toNat_word_ofInt, ← Int.emod_bmod,
    Int.emod_emod_of_dvd _ divides, Int.emod_bmod]

theorem toNat_wrapUInt (n : Int) {width : Nat} (h : width ≤ 64) :
    ((wrapUInt width n).toNat : Int) = n % twoPow width := by
  rw [wrapUInt, toNat_and_widthMask _ h, Int.natCast_emod, toNat_word_ofInt,
    Int.emod_emod_of_dvd _ (twoPow_dvd_twoPow h)]

theorem wrapInt_range (n : Int) {width : Nat} (low : 1 ≤ width) (high : width ≤ 64) :
    -twoPow (width - 1) ≤ (wrapInt width n).toInt ∧
      (wrapInt width n).toInt < twoPow (width - 1) := by
  have double := twoPow_eq_double low
  have hp := twoPow_pos width
  have h0 := Int.le_bmod (x := n) hp
  have h1 := Int.bmod_lt (x := n) hp
  rw [toInt_wrapInt n low high]
  omega

theorem wrapUInt_lt (n : Int) {width : Nat} (high : width ≤ 64) :
    (wrapUInt width n).toNat < twoPow width := by
  have hp : (0 : Int) < twoPow width := Int.natCast_pos.mpr (twoPow_pos width)
  have value := toNat_wrapUInt n high
  have bound := Int.emod_lt_of_pos n hp
  omega

theorem signedWidth_le_iff {n : Int} {width : Nat} (low : 1 ≤ width) :
    signedWidth n ≤ width ↔ -twoPow (width - 1) ≤ n ∧ n < twoPow (width - 1) := by
  have length (m : Nat) : bitLength m + 1 ≤ width ↔ m < twoPow (width - 1) := by
    rw [← bitLength_le_iff]
    omega
  unfold signedWidth
  split
  · rw [length]
    omega
  · rw [length]
    omega

theorem unsignedWidth_le_iff {n width : Nat} (low : 1 ≤ width) :
    unsignedWidth n ≤ width ↔ n < twoPow width := by
  rw [unsignedWidth, ← bitLength_le_iff]
  omega

theorem toNat_toUInt64_wrapInt_mod (n : Nat) {width : Nat} (low : 1 ≤ width)
    (high : width ≤ 64) : (wrapInt width n).toUInt64.toNat % twoPow width = n % twoPow width := by
  have divides := twoPow_dvd_twoPow high
  have word : ((wrapInt width n).toUInt64.toNat : Int) =
      ((n : Int).bmod (twoPow width)) % twoPow 64 := by
    rw [← toInt_wrapInt n low high, ← Int64.toInt_toBitVec, BitVec.toInt_eq_toNat_bmod]
    exact (Int.emod_eq_of_lt (Int.natCast_nonneg _)
      (Int.ofNat_lt.mpr (UInt64.toNat_lt _))).symm.trans Int.bmod_emod.symm
  apply Int.natCast_inj.mp
  rw [Int.natCast_emod, word, Int.emod_emod_of_dvd _ divides, Int.bmod_emod, Int.natCast_emod]

namespace Bits

theorem toNat_lt (b : Bits) : b.toNat < twoPow b.length := by
  obtain ⟨bits⟩ := b
  induction bits with
  | nil => exact Nat.one_pos
  | cons bit bits ih =>
    have tail : bits.foldr (fun bit n => 2 * n + bit.toNat) 0 < twoPow bits.length := ih
    have head : bit.toNat ≤ 1 := Bool.toNat_le bit
    simp only [toNat, length, List.foldr_cons, List.length_cons, twoPow_succ]
    omega

theorem toNat_toWord {b : Bits} (h : b.length ≤ 64) : b.toWord.toNat = b.toNat :=
  toNat_ofNat_of_lt_twoPow h b.toNat_lt

theorem testBit_toNat (b : Bits) (i : Nat) : b.toNat.testBit i = b.toList.getD i false := by
  obtain ⟨bits⟩ := b
  induction bits generalizing i with
  | nil => simp [toNat]
  | cons bit bits ih =>
    have tail := fun i => ih i
    simp only [toNat, List.foldr_cons] at tail ⊢
    cases i with
    | zero => cases bit <;> simp [Nat.testBit_zero, Nat.add_mod]
    | succ i =>
      have half (n : Nat) : (2 * n + bit.toNat) / 2 = n := by
        have low : bit.toNat ≤ 1 := Bool.toNat_le bit
        omega
      rw [Nat.testBit_succ, half, tail, List.getD_cons_succ]

theorem getElem?_ofNat (n : Nat) {width i : Nat} (bound : i < width) :
    (ofNat n width).toList[i]? = some (n.testBit i) := by
  simp [ofNat, bound]

theorem ofNat_toNat (b : Bits) : ofNat b.toNat b.length = b := by
  have bits : (List.range b.length).map b.toNat.testBit = b.toList := by
    refine List.ext_getElem ?_ fun i _ bound => ?_
    · rw [List.length_map, List.length_range, length]
    · rw [List.getElem_map, List.getElem_range, testBit_toNat, List.getD_eq_getElem _ _ bound]
  rw [ofNat, bits]

theorem ofNat_congr {m n width : Nat} (same : m % twoPow width = n % twoPow width) :
    ofNat m width = ofNat n width := by
  have bits : (List.range width).map m.testBit = (List.range width).map n.testBit := by
    apply List.map_congr_left
    intro i member
    have bound := List.mem_range.mp member
    have left := Nat.testBit_mod_two_pow m width i
    have right := Nat.testBit_mod_two_pow n width i
    rw [show 2 ^ width = twoPow width from rfl] at left right
    simp only [bound, decide_true, Bool.true_and] at left right
    rw [← left, ← right, same]
  rw [ofNat, ofNat, bits]

end Bits

end QasmValues
