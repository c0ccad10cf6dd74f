import QasmValues.Proofs.Builtin.Call

/-! Remainders of integers.
A remainder is off its dividend by a multiple of the divisor, nearer to zero than the
divisor, and on the side of the dividend. There is exactly one such number, and it is no
further from zero than the dividend: it needs no more bits, so that it never wraps, not
even where the quotient does not fit the word. -/

namespace QasmValues

/-- What a division of `x` by `y` that is cut off toward zero leaves. -/
structure IsRemainder (x y r : Int) : Prop where
  divides : y ∣ x - r
  near : r.natAbs < y.natAbs
  side : r = 0 ∨ r.sign = x.sign

section IsRemainder

variable {x y r s : Int}

theorem isRemainder_tmod (x : Int) (nonzero : y ≠ 0) : IsRemainder x y (x.tmod y) := by
  refine ⟨Int.dvd_self_sub_tmod, ?_, ?_⟩
  · rw [Int.natAbs_tmod]
    exact Nat.mod_lt _ (Int.natAbs_pos.mpr nonzero)
  · by_cases divides : y ∣ x
    · simp [Int.tmod_eq_zero_of_dvd divides]
    · simp [Int.sign_tmod, divides]

theorem IsRemainder.nonneg (h : IsRemainder x y r) (hx : 0 ≤ x) : 0 ≤ r := by
  obtain rfl | side := h.side
  · exact Int.le_refl 0
  · rwa [← Int.sign_nonneg_iff, side, Int.sign_nonneg_iff]

theorem IsRemainder.nonpos (h : IsRemainder x y r) (hx : x ≤ 0) : r ≤ 0 := by
  obtain rfl | side := h.side
  · exact Int.le_refl 0
  · rwa [← Int.sign_nonpos_iff, side, Int.sign_nonpos_iff]

theorem IsRemainder.unique (h : IsRemainder x y r) (h' : IsRemainder x y s) : r = s := by
  have gap : (x - s) - (x - r) = r - s := by omega
  have divides : y ∣ r - s := gap ▸ Int.dvd_sub h'.divides h.divides
  have near : (r - s).natAbs < y.natAbs := by
    have hr := h.near
    have hs := h'.near
    obtain nonneg | nonpos := Int.le_total 0 x
    · have first := h.nonneg nonneg
      have second := h'.nonneg nonneg
      omega
    · have first := h.nonpos nonpos
      have second := h'.nonpos nonpos
      omega
  exact Int.sub_eq_zero.mp (Int.eq_zero_of_dvd_of_natAbs_lt_natAbs divides near)

end IsRemainder

namespace Builtin

variable (complex : Complex.Functions)

theorem call_mod_int (x y : Int64) (a b : Nat) :
    call .mod complex [.int x a, .int y b] =
      if y = 0 then .error .divisionByZero else .ok (.int (x % y) (max a b)) :=
  rfl

theorem call_mod_uint (x y : UInt64) (a b : Nat) :
    call .mod complex [.uint x a, .uint y b] =
      if y = 0 then .error .divisionByZero else .ok (.uint (x % y) (max a b)) :=
  rfl

theorem isRemainder_int_mod (x : Int64) {y : Int64} (nonzero : y ≠ 0) :
    IsRemainder x.toInt y.toInt (x % y).toInt := by
  have divisor : y.toInt ≠ 0 := fun zero => nonzero (Int64.toInt_inj.mp zero)
  rw [Int64.toInt_mod]
  exact isRemainder_tmod _ divisor

theorem isRemainder_uint_mod (x : UInt64) {y : UInt64} (nonzero : y ≠ 0) :
    IsRemainder x.toNat y.toNat (x % y).toNat := by
  have divisor : y.toNat ≠ 0 := fun zero => nonzero (UInt64.toNat_inj.mp zero)
  rw [UInt64.toNat_mod, Int.ofNat_tmod]
  exact isRemainder_tmod _ (Int.natCast_ne_zero.mpr divisor)

/-- The remainder of two signed or of two unsigned integers is a value of the wider of their
types, and the number it holds is the one that the exact division leaves: no operands
overflow, and only a zero divisor is refused. An unsigned remainder is less than its divisor. -/
theorem mod_exact (a b : Nat) :
    (∀ x y : Int64, Scalar.Fits (.int x a) → Scalar.Fits (.int y b) →
      (y = 0 → call .mod complex [.int x a, .int y b] = .error .divisionByZero) ∧
      (y ≠ 0 → ∃ r, call .mod complex [.int x a, .int y b] = .ok (.int r (max a b)) ∧
        Scalar.Fits (.int r (max a b)) ∧ IsRemainder x.toInt y.toInt r.toInt ∧
        ∀ s, IsRemainder x.toInt y.toInt s → s = r.toInt)) ∧
    ∀ x y : UInt64, Scalar.Fits (.uint x a) → Scalar.Fits (.uint y b) →
      (y = 0 → call .mod complex [.uint x a, .uint y b] = .error .divisionByZero) ∧
      (y ≠ 0 → ∃ r, call .mod complex [.uint x a, .uint y b] = .ok (.uint r (max a b)) ∧
        Scalar.Fits (.uint r (max a b)) ∧ r.toNat < y.toNat ∧
        IsRemainder x.toNat y.toNat r.toNat ∧
        ∀ s, IsRemainder x.toNat y.toNat s → s = r.toNat) := by
  constructor
  · intro x y fits fits'
    refine ⟨fun zero => ?_, fun nonzero => ⟨x % y, ?_, ?_, ?_, ?_⟩⟩
    · rw [call_mod_int, if_pos zero]
    · rw [call_mod_int, if_neg nonzero]
    · exact Scalar.fits_int_mod fits fits'
    · exact isRemainder_int_mod x nonzero
    · exact fun s h => h.unique (isRemainder_int_mod x nonzero)
  · intro x y fits fits'
    refine ⟨fun zero => ?_, fun nonzero => ⟨x % y, ?_, ?_, ?_, ?_, ?_⟩⟩
    · rw [call_mod_uint, if_pos zero]
    · rw [call_mod_uint, if_neg nonzero]
    · exact Scalar.fits_uint_mod fits fits'
    · have near := (isRemainder_uint_mod x nonzero).near
      rwa [Int.natAbs_natCast, Int.natAbs_natCast] at near
    · exact isRemainder_uint_mod x nonzero
    · exact fun s h => h.unique (isRemainder_uint_mod x nonzero)

theorem mod_exact_of_most_negative :
    (Scalar.Fits (.int Int64.minValue 64) ∧ Scalar.Fits (.int (-1) 8) ∧ (-1 : Int64) ≠ 0 ∧
      ¬InWord (Int64.minValue.toInt.tdiv (-1)) ∧
      ∃ r, call .mod .polar [.int Int64.minValue 64, .int (-1) 8] = .ok (.int r 64) ∧
        IsRemainder Int64.minValue.toInt (-1) r.toInt) ∧
    Scalar.Fits (.uint 13 4) ∧ Scalar.Fits (.uint 5 64) ∧ (5 : UInt64) ≠ 0 ∧
      ∃ r, call .mod .polar [.uint 13 4, .uint 5 64] = .ok (.uint r 64) ∧
        IsRemainder 13 5 r.toNat := by
  have fits : Scalar.Fits (.int Int64.minValue 64) ∧ Scalar.Fits (.int (-1) 8) := by decide
  have fits' : Scalar.Fits (.uint 13 4) ∧ Scalar.Fits (.uint 5 64) := by decide
  have nonzero : (-1 : Int64) ≠ 0 := by decide
  have nonzero' : (5 : UInt64) ≠ 0 := by decide
  obtain ⟨r, value, -, left, -⟩ := ((mod_exact .polar 64 8).1 _ _ fits.1 fits.2).2 nonzero
  obtain ⟨s, value', -, -, left', -⟩ := ((mod_exact .polar 4 64).2 _ _ fits'.1 fits'.2).2 nonzero'
  exact ⟨⟨fits.1, fits.2, nonzero, by decide, r, value, left⟩, fits'.1, fits'.2, nonzero', s,
    value', left'⟩

end Builtin

end QasmValues
