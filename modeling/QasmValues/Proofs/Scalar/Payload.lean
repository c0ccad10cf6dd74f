import Mathlib.Data.Int.Bitwise
import Mathlib.Data.Int.ModEq
import QasmValues.Proofs.Scalar.Cast

/-! The number that a word holds.
An integer and an angle are each one number in the range of their type, and a range
has as many numbers as the width has patterns of bits: the number, and so the value,
is determined by its residue modulo that power of two, and its bits are those of the
residue. -/

namespace QasmValues

theorem toUInt64_modEq (n : Int64) {width : Nat} (high : width ≤ 64) :
    (n.toUInt64.toNat : Int) ≡ n.toInt [ZMOD twoPow width] := by
  have signed : n.toInt = (n.toUInt64.toNat : Int).bmod (twoPow 64) := by
    rw [← Int64.toInt_toBitVec, BitVec.toInt_eq_toNat_bmod, Int64.toNat_toBitVec]
    rfl
  rw [signed]
  exact Int.ModEq.of_dvd (twoPow_dvd_twoPow high) Int.bmod_emod.symm

theorem wrapInt_modEq (n : Int) {width : Nat} (low : 1 ≤ width) (high : width ≤ 64) :
    (wrapInt width n).toInt ≡ n [ZMOD twoPow width] := by
  rw [toInt_wrapInt n low high]
  exact Int.bmod_emod

theorem wrapUInt_modEq (n : Int) {width : Nat} (high : width ≤ 64) :
    ((wrapUInt width n).toNat : Int) ≡ n [ZMOD twoPow width] := by
  rw [toNat_wrapUInt n high]
  exact Int.mod_modEq n _

theorem testBit_emod_twoPow (n : Int) {width i : Nat} (bound : i < width) :
    (n % twoPow width).toNat.testBit i = n.testBit i := by
  have positive := twoPow_pos width
  have power : 2 ^ width = twoPow width := rfl
  cases n with
  | ofNat m =>
    have low := Nat.testBit_mod_two_pow m width i
    rw [power] at low
    change ((m : Int) % (twoPow width : Int)).toNat.testBit i = m.testBit i
    rw [← Int.natCast_emod, Int.toNat_natCast, low]
    simp [bound]
  | negSucc m =>
    have inside : m % twoPow width < twoPow width := Nat.mod_lt _ positive
    have flipped := Nat.testBit_two_pow_sub_succ (power ▸ inside) i
    have low := Nat.testBit_mod_two_pow m width i
    rw [power] at flipped low
    have residue : (Int.negSucc m % (twoPow width : Int)).toNat =
        twoPow width - (m % twoPow width + 1) := by
      rw [Int.negSucc_emod m (by omega)]
      omega
    change _ = !m.testBit i
    rw [residue, flipped, low]
    simp [bound]

namespace Bits

theorem toNat_ofNat (n width : Nat) : (ofNat n width).toNat = n % twoPow width := by
  apply Nat.eq_of_testBit_eq
  intro i
  have low := Nat.testBit_mod_two_pow n width i
  rw [show 2 ^ width = twoPow width from rfl] at low
  rw [testBit_toNat, low, List.getD_eq_getElem?_getD]
  by_cases bound : i < width
  · simp [getElem?_ofNat n bound, bound]
  · simp [ofNat, bound]

theorem ofNat_residue (n width : Nat) :
    ofNat ((n : Int) % twoPow width).toNat width = ofNat n width := by
  rw [← Int.natCast_emod, Int.toNat_natCast]
  exact ofNat_congr (Nat.mod_mod n _)

theorem toNat_ofNat_residue (n : Int) (width : Nat) :
    ((ofNat (n % twoPow width).toNat width).toNat : Int) ≡ n [ZMOD twoPow width] := by
  have positive := twoPow_pos width
  have nonneg : 0 ≤ n % (twoPow width : Int) := Int.emod_nonneg n (by omega)
  have reduced : ((n % (twoPow width : Int)).toNat : Int) ≡ n [ZMOD twoPow width] := by
    rw [Int.toNat_of_nonneg nonneg]
    exact Int.mod_modEq n _
  rw [toNat_ofNat, Int.natCast_emod]
  exact (Int.mod_modEq _ _).trans reduced

end Bits

namespace ScalarType

def integers (width : Nat) : List ScalarType := [.int width, .uint width]

def words (width : Nat) : List ScalarType := [.int width, .uint width, .angle width]

/-- The numbers that a word of a type may hold. -/
def Holds : ScalarType → Int → Prop
  | .int w, n => -twoPow (w - 1) ≤ n ∧ n < twoPow (w - 1)
  | .uint w, n | .angle w, n => 0 ≤ n ∧ n < twoPow w
  | _, _ => False

variable {t : ScalarType} {w : Nat}

theorem mem_integers : t ∈ integers w ↔ t = .int w ∨ t = .uint w := by
  simp [integers]

theorem mem_words : t ∈ words w ↔ t = .int w ∨ t = .uint w ∨ t = .angle w := by
  simp [words]

theorem words_of_integers (h : t ∈ integers w) : t ∈ words w := by
  rcases mem_integers.mp h with rfl | rfl <;> simp [words]

theorem valid_of_words (h : t ∈ words w) : t.Valid ↔ 1 ≤ w ∧ w ≤ 64 := by
  rcases mem_words.mp h with rfl | rfl | rfl <;> rfl

theorem width_of_words (h : t ∈ words w) : t.width = some w := by
  rcases mem_words.mp h with rfl | rfl | rfl <;> rfl

theorem Holds.eq_of_modEq {p q : Int} (h : t ∈ words w) (low : 1 ≤ w) (hp : t.Holds p)
    (hq : t.Holds q) (agree : p ≡ q [ZMOD twoPow w]) : p = q := by
  have double := twoPow_eq_double low
  have near : |q - p| < twoPow w := by
    rw [abs_lt]
    rcases mem_words.mp h with rfl | rfl | rfl <;> simp only [Holds] at hp hq <;> omega
  have zero := Int.eq_zero_of_abs_lt_dvd (Int.modEq_iff_dvd.mp agree) near
  omega

end ScalarType

namespace Scalar

/-- The number that the word of an integer or of an angle holds. -/
def payload? : Scalar → Option Int
  | .int n _ => some n.toInt
  | .uint n _ => some n.toNat
  | .angle a => some a.raw.toNat
  | _ => none

variable {v r : Scalar} {w : Nat} {p : Int}

theorem exists_payload (h : v.type ∈ ScalarType.words w) : ∃ p, v.payload? = some p := by
  cases v <;> simp [type, ScalarType.words, payload?] at h ⊢

theorem fits_iff_holds (h : v.payload? = some p) : v.Fits ↔ v.type.Valid ∧ v.type.Holds p := by
  cases v <;> simp only [payload?, Option.some.injEq, reduceCtorEq] at h <;> subst h
  case int n w => rfl
  all_goals simp [Fits, type, ScalarType.Valid, ScalarType.Holds]

theorem eq_of_payload (same : v.type = r.type) (hv : v.payload? = some p)
    (hr : r.payload? = some p) : v = r := by
  have held := hv.trans hr.symm
  cases v with
  | int n w =>
    cases r <;> cases same
    exact congrArg (Scalar.int · w) (Int64.toInt_inj.mp (Option.some.inj held))
  | uint n w =>
    cases r <;> cases same
    simp only [payload?, Option.some.injEq, Int.natCast_inj, UInt64.toNat_inj] at held
    rw [held]
  | angle a =>
    cases r with
    | angle a' =>
      obtain ⟨raw, w⟩ := a
      obtain ⟨raw', w'⟩ := a'
      cases same
      simp only [payload?, Option.some.injEq, Int.natCast_inj, UInt64.toNat_inj] at held
      rw [held]
    | bool | int | uint | float | bit | complex | duration | stretch => cases same
  | bool | float | bit | complex | duration | stretch => cases hv

theorem eq_of_modEq {q : Int} (h : v.type ∈ ScalarType.words w) (same : r.type = v.type)
    (fits : v.Fits) (fits' : r.Fits) (hv : v.payload? = some p) (hr : r.payload? = some q)
    (agree : p ≡ q [ZMOD twoPow w]) : v = r := by
  obtain ⟨valid, range⟩ := (fits_iff_holds hv).mp fits
  have range' := ((fits_iff_holds hr).mp fits').2
  rw [same] at range'
  have low := ((ScalarType.valid_of_words h).mp valid).1
  obtain rfl := range.eq_of_modEq h low range' agree
  exact eq_of_payload same.symm hv hr

/-- The bits of a word are those of the number it holds, modulo its width. -/
theorem bits_of_payload (h : v.type ∈ ScalarType.words w) (high : w ≤ 64)
    (hp : v.payload? = some p) : v.bits = .ok (.ofNat (p % twoPow w).toNat w) := by
  have width := ScalarType.width_of_words h
  cases v with
  | int n w' =>
    obtain rfl : w' = w := Option.some.inj width
    obtain rfl : n.toInt = p := Option.some.inj hp
    have agree : (n.toUInt64.toNat : Int) % twoPow w' = n.toInt % twoPow w' :=
      toUInt64_modEq n high
    rw [← agree, Bits.ofNat_residue]
    rfl
  | uint n w' =>
    obtain rfl : w' = w := Option.some.inj width
    obtain rfl : (n.toNat : Int) = p := Option.some.inj hp
    rw [Bits.ofNat_residue]
    rfl
  | angle a =>
    obtain rfl : a.width = w := Option.some.inj width
    obtain rfl : (a.raw.toNat : Int) = p := Option.some.inj hp
    rw [Bits.ofNat_residue]
    rfl
  | bool | float | bit | complex | duration | stretch => cases hp

end Scalar

end QasmValues
