import Mathlib.Data.List.Rotate
import Mathlib.Data.Nat.Prime.Pow
import QasmValues.Proofs.Word

/-! Rotations of bit strings.
A rotation moves every bit by the same number of positions, around the end, so that as many
are set as before. Rotations by all integers compose by addition, and only the residue modulo
the length counts. The two directions take a 64-bit distance, and the second negates it in
the word: that is a negation except for the most negative distance, which stays what it is. -/

namespace QasmValues

def around (length : Nat) (n : Int) : Nat := (n % length).toNat

section around

variable {length i : Nat} {m n : Int}

theorem natCast_around (filled : 0 < length) (n : Int) : (around length n : Int) = n % length := by
  have nonneg := Int.emod_nonneg n (Int.natCast_ne_zero.mpr filled.ne')
  rw [around, Int.toNat_of_nonneg nonneg]

theorem around_lt (filled : 0 < length) (n : Int) : around length n < length := by
  have bound := Int.emod_lt_of_pos n (Int.natCast_pos.mpr filled)
  have position := natCast_around filled n
  omega

theorem around_natCast (inside : i < length) : around length i = i := by
  rw [around, ← Int.natCast_emod, Int.toNat_natCast, Nat.mod_eq_of_lt inside]

theorem around_add_of_pos (filled : 0 < length) (m n : Int) :
    around length (around length m + n) = around length (m + n) := by
  rw [natCast_around filled, around, Int.emod_add_emod, around]

theorem around_eq_zero_iff (filled : 0 < length) : around length n = 0 ↔ (length : Int) ∣ n := by
  rw [← Int.natCast_eq_zero, natCast_around filled, Int.dvd_iff_emod_eq_zero]

end around

namespace Bits

variable {b c : Bits} {i n : Nat} {j k : Int}

/-- The bits of `c` are those of `b`, each moved up by `k` positions around the end. -/
structure Moved (k : Int) (b c : Bits) : Prop where
  length : c.length = b.length
  bits : ∀ i < b.length, c.toList[around b.length (i + k)]? = b.toList[i]?

/-- All bits moved up by `k` positions, around the end. -/
def turn (b : Bits) (k : Int) : Bits := b.rotateUp (around b.length k)

@[simp] theorem length_turn (b : Bits) (k : Int) : (b.turn k).length = b.length := by
  simp [turn, rotateUp, Bits.length]

theorem rotl_eq_turn (b : Bits) (d : Int64) : b.rotl d = b.turn d.toInt := rfl

theorem rotr_eq_turn (b : Bits) (d : Int64) : b.rotr d = b.turn (-d).toInt := rfl

theorem ext_of_lt (same : b.length = c.length)
    (bits : ∀ i < b.length, b.toList[i]? = c.toList[i]?) : b = c := by
  obtain ⟨b⟩ := b
  obtain ⟨c⟩ := c
  congr 1
  apply List.ext_getElem?
  intro i
  by_cases inside : i < b.length
  · exact bits i inside
  · have outside : c.length ≤ i := by
      simp only [Bits.length] at same
      omega
    rw [List.getElem?_eq_none (Nat.le_of_not_lt inside), List.getElem?_eq_none outside]

theorem getElem?_turn (inside : i < b.length) (k : Int) :
    (b.turn k).toList[i]? = b.toList[around b.length (i - k)]? := by
  have filled : 0 < b.length := Nat.zero_lt_of_lt inside
  have source := around_lt filled (i - k)
  have index : (i + b.length - around b.length k % b.length) % b.length =
      around b.length (i - k) := by
    have shift := around_lt filled k
    apply Int.natCast_inj.mp
    rw [natCast_around filled, Nat.mod_eq_of_lt shift, Int.natCast_emod,
      Int.natCast_sub (by omega), natCast_around filled, Int.natCast_add, Int.sub_emod_emod,
      add_sub_right_comm, Int.add_emod_right]
  simp [turn, rotateUp, inside, index, List.getElem?_eq_getElem source]

@[simp] theorem turn_zero (b : Bits) : b.turn 0 = b := by
  apply ext_of_lt (length_turn b 0)
  intro i inside
  rw [length_turn] at inside
  rw [getElem?_turn inside, Int.sub_zero, around_natCast inside]

theorem turn_turn (b : Bits) (j k : Int) : (b.turn j).turn k = b.turn (j + k) := by
  apply ext_of_lt (by simp)
  intro i inside
  simp only [length_turn] at inside
  have filled : 0 < b.length := Nat.zero_lt_of_lt inside
  have source : around b.length (i - k) < b.length := around_lt filled _
  have start : (i : Int) - k + -j = i - (j + k) := by omega
  rw [getElem?_turn (by rwa [length_turn]), length_turn, getElem?_turn source, sub_eq_add_neg _ j,
    around_add_of_pos filled, start, getElem?_turn inside]

theorem turn_of_dvd (divides : (b.length : Int) ∣ k) : b.turn k = b := by
  have same : around b.length k = around b.length 0 := by
    rw [around, around, Int.emod_eq_zero_of_dvd divides, Int.zero_emod]
  rw [turn, same]
  exact turn_zero b

theorem turn_eq_turn_iff : b.turn j = b.turn k ↔ b.turn (j - k) = b := by
  constructor
  · intro same
    rw [sub_eq_add_neg, ← turn_turn, same, turn_turn, add_neg_cancel, turn_zero]
  · intro fixed
    nth_rewrite 2 [← fixed]
    rw [turn_turn, sub_add_cancel]

theorem turn_neg_eq_iff : b.turn (-k) = b ↔ b.turn k = b := by
  have same := turn_eq_turn_iff (b := b) (j := 0) (k := k)
  rw [turn_zero, zero_sub] at same
  rw [← same, eq_comm]

theorem moved_iff : b.Moved k c ↔ c = b.turn k := by
  constructor
  · rintro ⟨length, bits⟩
    apply ext_of_lt (by rw [length, length_turn])
    intro i inside
    rw [length] at inside
    have filled : 0 < b.length := Nat.zero_lt_of_lt inside
    have arrives := bits _ (around_lt filled (i - k))
    rw [around_add_of_pos filled, sub_add_cancel, around_natCast inside] at arrives
    rw [arrives, getElem?_turn inside]
  · rintro rfl
    refine ⟨length_turn b k, fun i inside => ?_⟩
    have filled : 0 < b.length := Nat.zero_lt_of_lt inside
    rw [getElem?_turn (around_lt filled _), sub_eq_add_neg, around_add_of_pos filled,
      add_neg_cancel_right, around_natCast inside]

/-! ### Turns as rotations of a list -/

theorem toList_turn (b : Bits) (k : Int) :
    (b.turn k).toList = b.toList.rotate (around b.length (-k)) := by
  have turned : (b.turn k).toList.length = b.length := length_turn b k
  apply List.ext_getElem?
  intro i
  by_cases inside : i < b.length
  · have filled : 0 < b.length := Nat.zero_lt_of_lt inside
    have index : around b.length (i - k) = (i + around b.length (-k)) % b.length := by
      apply Int.natCast_inj.mp
      rw [natCast_around filled, Int.natCast_emod, Int.natCast_add, natCast_around filled,
        Int.add_emod_emod, sub_eq_add_neg]
    rw [getElem?_turn inside, List.getElem?_rotate inside, index, Bits.length]
  · have outside : b.length ≤ i := Nat.le_of_not_lt inside
    rw [List.getElem?_eq_none (turned.trans_le outside),
      List.getElem?_eq_none ((b.toList.length_rotate _).trans_le outside)]

theorem popcount_turn (b : Bits) (k : Int) : (b.turn k).popcount = b.popcount := by
  rw [popcount, popcount, toList_turn]
  exact (b.toList.rotate_perm _).count_eq true

/-! ### Turns that change nothing -/

theorem dvd_of_turn_one (filled : 0 < n) (fixed : (ofNat 1 n).turn k = ofNat 1 n) :
    (n : Int) ∣ k := by
  have length := length_ofNat 1 n
  have source := around_lt filled (0 - k)
  have entry := congrArg (fun b : Bits => b.toList[0]?) fixed
  change ((ofNat 1 n).turn k).toList[0]? = (ofNat 1 n).toList[0]? at entry
  rw [getElem?_turn (by rwa [length]), length, Int.natCast_zero, getElem?_ofNat 1 source,
    getElem?_ofNat 1 filled, Option.some.injEq] at entry
  have lowest := Nat.testBit_one_eq_true_iff_self_eq_zero.mp entry
  have home := (around_eq_zero_iff filled).mp lowest
  rwa [zero_sub, Int.dvd_neg] at home

/-- A turn changes no string of some length just when it goes round it a whole number of times. -/
theorem forall_turn_eq_iff :
    (∀ b : Bits, b.length = n → b.turn k = b) ↔ n = 0 ∨ (n : Int) ∣ k := by
  constructor
  · intro fixed
    obtain rfl | filled := Nat.eq_zero_or_pos n
    · exact .inl rfl
    · exact .inr (dvd_of_turn_one filled (fixed _ (length_ofNat 1 n)))
  · rintro (empty | divides) b rfl
    · apply ext_of_lt (length_turn b k)
      intro i inside
      rw [length_turn] at inside
      omega
    · exact turn_of_dvd divides

theorem dvd_twoPow_iff {width : Nat} : (n : Int) ∣ twoPow width ↔ ∃ e ≤ width, n = twoPow e := by
  rw [Int.natCast_dvd_natCast]
  exact Nat.dvd_prime_pow Nat.prime_two

/-! ### There and back -/

theorem toInt_neg_of_ne {d : Int64} (h : d ≠ Int64.minValue) : (-d).toInt = -d.toInt := by
  have low := d.le_toInt
  have high := d.toInt_lt
  have inner : d.toInt ≠ -2 ^ 63 := fun same =>
    h (Int64.toInt_inj.mp (same.trans Int64.toInt_minValue.symm))
  rw [Int64.toInt_neg, Int.bmod_eq_of_le] <;> omega

theorem rotr_rotl (b : Bits) (d : Int64) :
    (b.rotl d).rotr d = b.turn (d.toInt + (-d).toInt) := by
  rw [rotl_eq_turn, rotr_eq_turn, turn_turn]

theorem rotl_rotr (b : Bits) (d : Int64) :
    (b.rotr d).rotl d = b.turn (d.toInt + (-d).toInt) := by
  rw [rotl_eq_turn, rotr_eq_turn, turn_turn, Int.add_comm]

/-- The two directions undo each other for every distance but the most negative one. That
one is its own negation in the word, so that both directions are the same: twice it makes a
turn by the number of words, which leaves all strings of a length alone just when that
length is a power of two, as far as the powers divide that number. -/
theorem rotations_undo (d : Int64) :
    (∀ b : Bits, ((b.rotl d).rotr d = b ∧ (b.rotr d).rotl d = b) ↔
      d ≠ Int64.minValue ∨ b.turn (twoPow 64) = b) ∧
    ∀ n, (∀ b : Bits, b.length = n → b.turn (twoPow 64) = b) ↔
      n = 0 ∨ ∃ e ≤ 64, n = twoPow e := by
  refine ⟨fun b => ?_, fun n => ?_⟩
  · rw [rotr_rotl, rotl_rotr, and_self]
    by_cases extreme : d = Int64.minValue
    · subst extreme
      have twice : Int64.minValue.toInt + (-Int64.minValue).toInt = -(twoPow 64 : Nat) := by decide
      rw [twice, turn_neg_eq_iff]
      simp
    · rw [toInt_neg_of_ne extreme, add_neg_cancel, turn_zero]
      simp [extreme]
  · rw [forall_turn_eq_iff, dvd_twoPow_iff]

/-- Three bits are turned by one position both there and back. -/
theorem not_undone_of_three_bits :
    let b : Bits := ⟨[true, false, false]⟩
    (b.rotl Int64.minValue).rotr Int64.minValue = ⟨[false, false, true]⟩ ∧
      ¬((b.rotl Int64.minValue).rotr Int64.minValue = b ∧
        (b.rotr Int64.minValue).rotl Int64.minValue = b) := by
  decide

end Bits

end QasmValues
