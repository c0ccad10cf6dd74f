import Mathlib.NumberTheory.Multiplicity
import Mathlib.RingTheory.Int.Basic
import QasmValues.Proofs.Builtin.Call
import QasmValues.Proofs.Scalar.Payload

/-! Powers of integers.
The products of a power wrap at the word and the result at its width, which changes no
residue. But an exponent of more than 32 bits counts as the largest that has no more, and
the factors left out must not matter: they do not for an even base, whose powers vanish,
and for an odd one they are a power of it that must be congruent to one. -/

namespace QasmValues

variable {w m n : Nat} {x : Int}

theorem toInt_mul_modEq (a b : Int64) : (a * b).toInt ≡ a.toInt * b.toInt [ZMOD twoPow 64] := by
  rw [Int64.toInt_mul]
  exact Int.bmod_emod

theorem wordPow_modEq (base : Int64) {bits exponent : Nat} (bound : exponent < twoPow bits) :
    (wordPow base bits exponent).toInt ≡ base.toInt ^ exponent [ZMOD twoPow 64] := by
  induction bits generalizing base exponent with
  | zero =>
    obtain rfl : exponent = 0 := Nat.lt_one_iff.mp bound
    rw [pow_zero]
    rfl
  | succ bits ih =>
    have shorter : exponent / 2 < twoPow bits := by
      rw [twoPow_succ] at bound
      omega
    have rest := (ih (base * base) shorter).trans ((toInt_mul_modEq base base).pow (exponent / 2))
    rw [← pow_two, ← pow_mul] at rest
    unfold wordPow
    split
    · rename_i odd
      have parts : exponent = 2 * (exponent / 2) + 1 := by omega
      calc (base * wordPow (base * base) bits (exponent / 2)).toInt
          ≡ base.toInt * (wordPow (base * base) bits (exponent / 2)).toInt [ZMOD twoPow 64] :=
            toInt_mul_modEq _ _
        _ ≡ base.toInt * base.toInt ^ (2 * (exponent / 2)) [ZMOD twoPow 64] := rest.mul_left _
        _ = base.toInt ^ exponent := by rw [← pow_succ', ← parts]
    · rename_i even
      have parts : exponent = 2 * (exponent / 2) := by omega
      rw [← parts] at rest
      exact rest

/-! ### Powers that are congruent -/

theorem natCast_twoPow (n : Nat) : (twoPow n : Int) = 2 ^ n := Int.natCast_pow 2 n

theorem twoPow_dvd_iff : (twoPow n : Int) ∣ x ↔ (n : ℕ∞) ≤ emultiplicity 2 x := by
  rw [natCast_twoPow, pow_dvd_iff_le_emultiplicity]

theorem pow_modEq_one_iff (odd : Odd x) :
    x ^ n ≡ 1 [ZMOD twoPow w] ↔
      x ≡ 1 [ZMOD twoPow w] ∨ Even n ∧ (twoPow (w + 1) : Int) ∣ (x ^ 2 - 1) * n := by
  have near : (2 : Int) ∣ x - 1 := by
    obtain ⟨y, rfl⟩ := odd
    exact ⟨y, by ring⟩
  have apart : ¬(2 : Int) ∣ x := by
    rw [← even_iff_two_dvd]
    exact Int.not_even_iff_odd.mpr odd
  rw [Int.modEq_comm, Int.modEq_comm (a := x), Int.modEq_iff_dvd, Int.modEq_iff_dvd]
  by_cases even : Even n
  · have lifted := Int.two_pow_sub_pow near apart even
    have product : (x ^ 2 - 1) * n = (x + 1) * (x - 1) * n := by ring
    rw [one_pow, ← emultiplicity_mul Int.prime_two, ← emultiplicity_mul Int.prime_two,
      ← product] at lifted
    have step : (twoPow w : Int) ∣ x ^ n - 1 ↔ (twoPow (w + 1) : Int) ∣ (x ^ 2 - 1) * n := by
      rw [twoPow_dvd_iff, twoPow_dvd_iff, ← lifted, Nat.cast_add_one]
      exact (ENat.add_le_add_iff_right ENat.one_ne_top).symm
    rw [step]
    simp only [even, true_and, iff_or_self]
    intro close
    rw [← step]
    exact close.trans (sub_one_dvd_pow_sub_one x n)
  · have count : ¬(2 : Int) ∣ n := by
      rw [← even_iff_two_dvd, Int.even_coe_nat]
      exact even
    have lifted := emultiplicity_pow_sub_pow_of_prime Int.prime_two near apart count
    rw [one_pow] at lifted
    rw [twoPow_dvd_iff, twoPow_dvd_iff, lifted]
    simp [even]

theorem pow_modEq_zero (even : Even x) (long : w ≤ n) : x ^ n ≡ 0 [ZMOD twoPow w] := by
  obtain ⟨y, rfl⟩ := even_iff_two_dvd.mp even
  rw [Int.modEq_zero_iff_dvd, natCast_twoPow, mul_pow]
  exact Dvd.dvd.mul_right (pow_dvd_pow 2 long) _

/-- A longer power with an exponent of at least the width is congruent to a shorter one. -/
theorem pow_modEq_pow_iff (long : w ≤ m) (more : m ≤ n) :
    x ^ n ≡ x ^ m [ZMOD twoPow w] ↔
      Even x ∨ x ≡ 1 [ZMOD twoPow w] ∨
        Even (n - m) ∧ (twoPow (w + 1) : Int) ∣ (x ^ 2 - 1) * (n - m : Nat) := by
  obtain even | odd := Int.even_or_odd x
  · have vanish := (pow_modEq_zero even (long.trans more)).trans (pow_modEq_zero even long).symm
    simp [even, vanish]
  · have coprime : IsCoprime (twoPow w : Int) (x ^ m) := by
      rw [natCast_twoPow]
      exact (Int.isCoprime_two_left.mpr odd).pow
    have factor : x ^ n - x ^ m = (x ^ (n - m) - 1) * x ^ m := by
      rw [sub_one_mul, ← pow_add, Nat.sub_add_cancel more]
    rw [or_iff_right (Int.not_even_iff_odd.mpr odd), ← pow_modEq_one_iff odd, Int.modEq_comm,
      Int.modEq_iff_dvd, Int.modEq_comm, Int.modEq_iff_dvd, factor]
    constructor
    · exact coprime.dvd_of_dvd_mul_right
    · intro close
      exact close.mul_right (x ^ m)

/-! ### The number of a width that is congruent to a power -/

/-- The one number of `w` bits in two's complement that is congruent to `n`. -/
structure IsResidue (w : Nat) (n k : Int) : Prop where
  range : (ScalarType.int w).Holds k
  congruent : k ≡ n [ZMOD twoPow w]
  unique : ∀ j, (ScalarType.int w).Holds j → j ≡ n [ZMOD twoPow w] → j = k

theorem isResidue_iff {k y : Int} (low : 1 ≤ w) (range : (ScalarType.int w).Holds k) :
    IsResidue w y k ↔ k ≡ y [ZMOD twoPow w] := by
  constructor
  · exact IsResidue.congruent
  · intro congruent
    refine ⟨range, congruent, fun j held agree => ?_⟩
    exact held.eq_of_modEq (.head _) low range (agree.trans congruent.symm)

namespace Builtin

theorem maxExponent_eq : maxExponent = 4294967295 := rfl

theorem wrapInt_wordPow_modEq (b : Int64) (e : Nat) (low : 1 ≤ w) (high : w ≤ 64) :
    (wrapInt w (wordPow b 32 (min e maxExponent)).toInt).toInt ≡
      b.toInt ^ min e maxExponent [ZMOD twoPow w] := by
  have divides : (twoPow w : Int) ∣ twoPow 64 := twoPow_dvd_twoPow high
  have bound : min e maxExponent < twoPow 32 := by
    have exponents : twoPow 32 = 4294967296 := rfl
    rw [maxExponent_eq]
    omega
  exact (wrapInt_modEq _ low high).trans ((wordPow_modEq b bound).of_dvd divides)

theorem pow_min_modEq_iff (high : w ≤ 64) (e : Nat) :
    x ^ min e maxExponent ≡ x ^ e [ZMOD twoPow w] ↔
      e ≤ maxExponent ∨ Even x ∨ x ≡ 1 [ZMOD twoPow w] ∨
        Even (e - maxExponent) ∧
          (twoPow (w + 1) : Int) ∣ (x ^ 2 - 1) * (e - maxExponent : Nat) := by
  by_cases short : e ≤ maxExponent
  · simp [short]
  · have long : w ≤ maxExponent := by
      rw [maxExponent_eq]
      omega
    have more : maxExponent ≤ e := Nat.le_of_not_le short
    rw [Nat.min_eq_right more, or_iff_right short, Int.modEq_comm, pow_modEq_pow_iff long more]

/-- A power of an integer is the number of its width that is congruent to the exact power,
for an exponent of at most 32 bits. A greater one counts as the greatest of them, and the
result is that of the exact power just when the exponents make no difference: for an even
base, for one that is congruent to one, and otherwise if what the exponent has too much is
even and together with the square of the base less one has enough factors of two. -/
theorem pow_reduces (complex : Complex.Functions) {b : Int64} {e : UInt64} {w u : Nat}
    (fits : Scalar.Fits (.int b w)) :
    ∃ r : Int64, call .pow complex [.int b w, .uint e u] = .ok (.int r w) ∧
      IsResidue w (b.toInt ^ min e.toNat maxExponent) r.toInt ∧
      (IsResidue w (b.toInt ^ e.toNat) r.toInt ↔
        e.toNat ≤ maxExponent ∨ Even b.toInt ∨ b.toInt ≡ 1 [ZMOD twoPow w] ∨
          Even (e.toNat - maxExponent) ∧
            (twoPow (w + 1) : Int) ∣ (b.toInt ^ 2 - 1) * (e.toNat - maxExponent : Nat)) := by
  obtain ⟨low, high⟩ := fits.1
  have range := wrapInt_range (wordPow b 32 (min e.toNat maxExponent)).toInt low high
  have congruent := wrapInt_wordPow_modEq b e.toNat low high
  refine ⟨wrapInt w (wordPow b 32 (min e.toNat maxExponent)).toInt, rfl,
    (isResidue_iff low range).mpr congruent, ?_⟩
  rw [isResidue_iff low range, ← pow_min_modEq_iff high]
  constructor
  · exact congruent.symm.trans
  · exact congruent.trans

theorem pow_reduces_of_three :
    Scalar.Fits (.int 3 8) ∧
      call .pow .polar [.int 3 8, .uint 4294967359 64] = .ok (.int (-85) 8) ∧
      IsResidue 8 ((3 : Int64).toInt ^ (4294967359 : UInt64).toNat) (-85 : Int64).toInt := by
  have fits : Scalar.Fits (.int 3 8) := by decide
  have value : call .pow .polar [.int 3 8, .uint 4294967359 64] = .ok (.int (-85) 8) := by decide
  obtain ⟨r, call, -, agrees⟩ := pow_reduces .polar (e := 4294967359) (u := 64) fits
  cases value.symm.trans call
  have factors : Even ((4294967359 : UInt64).toNat - maxExponent) ∧
      (twoPow 9 : Int) ∣ ((3 : Int64).toInt ^ 2 - 1) *
        ((4294967359 : UInt64).toNat - maxExponent : Nat) := by
    decide
  exact ⟨fits, value, agrees.mpr (.inr (.inr (.inr factors)))⟩

/-- The least exponent of more than 32 bits counts one too little for a base of minus one. -/
theorem not_pow_reduces_of_wide_exponent :
    call .pow .polar [.int (-1) 8, .uint 4294967296 64] = .ok (.int (-1) 8) ∧
      IsResidue 8 ((-1 : Int64).toInt ^ (4294967296 : UInt64).toNat) 1 ∧
      ¬IsResidue 8 ((-1 : Int64).toInt ^ (4294967296 : UInt64).toNat) (-1 : Int64).toInt := by
  have call : call .pow .polar [.int (-1) 8, .uint 4294967296 64] = .ok (.int (-1) 8) := by decide
  have power : (-1 : Int64).toInt ^ (4294967296 : UInt64).toNat = 1 :=
    Even.neg_one_pow ⟨2147483648, rfl⟩
  refine ⟨call, ?_, ?_⟩
  · rw [power, isResidue_iff (by decide) ⟨by decide, by decide⟩]
  · rw [power, isResidue_iff (by decide) ⟨by decide, by decide⟩]
    decide

end Builtin

end QasmValues
