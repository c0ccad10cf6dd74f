import QasmValues.Proofs.Rounding
import QasmValues.Proofs.Scalar.Cast

/-! Angles at another width.
A wider angle is the same fraction of a turn. A narrower one is the number of its parts
that the fraction holds in full, or the nearest number of them, where a whole turn is zero.
So what is added by widening is taken away again, and dropping bits in several steps drops
the same bits as in one. -/

namespace QasmValues.Angle

variable {a b : Angle} {k m n : Nat} {narrowing back : Narrowing}

/-- The number of parts of an angle at another width. -/
def partsAt (a : Angle) (m : Nat) (narrowing : Narrowing) : Nat :=
  if a.width ≤ m then a.raw.toNat * twoPow (m - a.width)
  else match narrowing with
    | .truncate => a.raw.toNat / twoPow (a.width - m)
    | .round => roundDiv a.raw.toNat (twoPow (a.width - m)) % twoPow m

theorem partsAt_of_le (wide : a.width ≤ m) (narrowing : Narrowing) :
    a.partsAt m narrowing = a.raw.toNat * twoPow (m - a.width) := if_pos wide

theorem partsAt_truncate (narrow : m ≤ a.width) :
    a.partsAt m .truncate = a.raw.toNat / twoPow (a.width - m) := by
  unfold partsAt
  split
  · have same : a.width = m := by omega
    rw [same, Nat.sub_self, twoPow_zero, Nat.mul_one, Nat.div_one]
  · rfl

theorem partsAt_round (narrow : m < a.width) :
    a.partsAt m .round = roundDiv a.raw.toNat (twoPow (a.width - m)) % twoPow m :=
  if_neg (Nat.not_le_of_lt narrow)

theorem partsAt_lt (inside : a.raw.toNat < twoPow a.width) :
    a.partsAt m narrowing < twoPow m := by
  by_cases wide : a.width ≤ m
  · rw [partsAt_of_le wide, ← twoPow_mul_twoPow (Nat.add_sub_cancel' wide)]
    exact Nat.mul_lt_mul_of_pos_right inside (twoPow_pos _)
  · have narrow : m < a.width := Nat.lt_of_not_le wide
    cases narrowing with
    | truncate =>
      rw [partsAt_truncate (Nat.le_of_lt narrow), Nat.div_lt_iff_lt_mul (twoPow_pos _),
        twoPow_mul_twoPow (Nat.add_sub_cancel' (Nat.le_of_lt narrow))]
      exact inside
    | round =>
      rw [partsAt_round narrow]
      exact Nat.mod_lt _ (twoPow_pos m)

/-- The carry is that of the nearest quotient. -/
theorem carry_iff (raw : UInt64) {shift : Nat} (low : 1 ≤ shift) (high : shift < 64) :
    (1 <<< UInt64.ofNat (shift - 1) < raw &&& widthMask shift ∨
      (raw &&& widthMask shift = 1 <<< UInt64.ofNat (shift - 1) ∧
        raw >>> UInt64.ofNat shift &&& 1 = 1)) ↔
    roundDiv raw.toNat (twoPow shift) = raw.toNat / twoPow shift + 1 := by
  have double := twoPow_eq_double low
  have positive := twoPow_pos (shift - 1)
  have bound : twoPow (shift - 1) < twoPow 64 := Nat.pow_lt_pow_right (by decide) (by omega)
  have half : ((1 : UInt64) <<< UInt64.ofNat (shift - 1)).toNat = twoPow (shift - 1) := by
    rw [toNat_shiftLeft 1 (by omega), UInt64.toNat_one, Nat.one_mul, Nat.mod_eq_of_lt bound]
  have dropped := toNat_and_widthMask raw (Nat.le_of_lt high)
  have odd : (raw >>> UInt64.ofNat shift &&& 1).toNat = raw.toNat / twoPow shift % 2 := by
    rw [UInt64.toNat_and, toNat_shiftRight raw high, UInt64.toNat_one, Nat.and_one_is_mod]
  rw [UInt64.lt_iff_toNat_lt, ← UInt64.toNat_inj, ← UInt64.toNat_inj, half, dropped, odd,
    UInt64.toNat_one]
  unfold roundDiv
  split <;> omega

theorem toNat_narrow_truncate (raw : UInt64) {shift : Nat} (high : shift < 64) :
    (narrow raw shift m .truncate).toNat = raw.toNat / twoPow shift :=
  toNat_shiftRight raw high

theorem toNat_narrow_round {raw : UInt64} {shift : Nat} (low : 1 ≤ shift) (filled : 1 ≤ m)
    (high : m + shift ≤ 64) (inside : raw.toNat < twoPow (m + shift)) :
    (narrow raw shift m .round).toNat = roundDiv raw.toNat (twoPow shift) % twoPow m := by
  have kept := toNat_shiftRight raw (k := shift) (by omega)
  have carries := carry_iff raw low (by omega)
  have bound : raw.toNat / twoPow shift < twoPow m := by
    rw [Nat.div_lt_iff_lt_mul (twoPow_pos _), ← twoPow_add]
    exact inside
  have room : twoPow m ≤ 9223372036854775808 := twoPow_le_twoPow (n := 63) (by omega)
  unfold narrow
  dsimp only
  split
  · rename_i carry
    rw [toNat_and_widthMask _ (by omega), carries.mp carry, UInt64.toNat_add, kept,
      UInt64.toNat_one, Nat.mod_eq_of_lt (b := 2 ^ 64) (by omega)]
  · rename_i none
    rw [carries] at none
    have least := le_roundDiv raw.toNat (twoPow shift)
    have most := roundDiv_le raw.toNat (twoPow shift)
    have same : roundDiv raw.toNat (twoPow shift) = raw.toNat / twoPow shift := by omega
    rw [kept, same, Nat.mod_eq_of_lt bound]

theorem toNat_wordAt (fits : (Scalar.angle a).Fits) (valid : 1 ≤ m ∧ m ≤ 64) :
    (a.wordAt m narrowing).toNat = a.partsAt m narrowing := by
  obtain ⟨⟨low, high⟩, inside⟩ := fits
  have top : a.width ≤ 64 := high
  by_cases wide : a.width ≤ m
  · have bound : a.partsAt m narrowing < twoPow m := partsAt_lt inside
    rw [wordAt, if_pos wide, toNat_shiftLeft _ (by omega), ← partsAt_of_le wide narrowing]
    exact Nat.mod_eq_of_lt (Nat.lt_of_lt_of_le bound (twoPow_le_twoPow valid.2))
  · have narrower : m < a.width := Nat.lt_of_not_le wide
    have whole : m + (a.width - m) = a.width := by omega
    rw [wordAt, if_neg wide]
    cases narrowing with
    | truncate =>
      rw [toNat_narrow_truncate _ (by omega), partsAt_truncate (Nat.le_of_lt narrower)]
    | round =>
      rw [toNat_narrow_round (by omega) valid.1 (by omega) (whole.symm ▸ inside),
        partsAt_round narrower]

theorem resize_eq_ok_iff (fits : (Scalar.angle a).Fits) :
    a.resize m narrowing = .ok b ↔
      (1 ≤ m ∧ m ≤ 64) ∧ b.width = m ∧ b.raw.toNat = a.partsAt m narrowing := by
  refine ScalarType.validate_bind_eq_ok_iff.trans (and_congr_right fun valid => ?_)
  obtain ⟨raw, width⟩ := b
  rw [← toNat_wordAt fits valid, UInt64.toNat_inj, pure_eq_ok_iff, Angle.mk.injEq, and_comm,
    @eq_comm _ m, @eq_comm _ (a.wordAt m narrowing)]

theorem fits_of_resize (fits : (Scalar.angle a).Fits) (h : a.resize m narrowing = .ok b) :
    b.width = m ∧ (Scalar.angle b).Fits := by
  obtain ⟨valid, width, raw⟩ := (resize_eq_ok_iff fits).mp h
  refine ⟨width, ?_, ?_⟩
  · rw [width]
    exact valid
  · rw [width, raw]
    exact partsAt_lt fits.2

theorem exists_resize (fits : (Scalar.angle a).Fits) (valid : 1 ≤ m ∧ m ≤ 64)
    (narrowing : Narrowing) :
    ∃ b, a.resize m narrowing = .ok b ∧ b.width = m ∧ b.raw.toNat = a.partsAt m narrowing := by
  have word : (a.wordAt m narrowing).toNat = a.partsAt m narrowing := toNat_wordAt fits valid
  exact ⟨⟨a.wordAt m narrowing, m⟩, (resize_eq_ok_iff fits).mpr ⟨valid, rfl, word⟩, rfl, word⟩

theorem resize_eq_error_iff :
    a.resize m narrowing = .error (.invalidWidth .angle m) ↔ ¬(1 ≤ m ∧ m ≤ 64) := by
  unfold resize ScalarType.validate
  by_cases valid : (ScalarType.angle m).Valid
  · rw [if_pos valid]
    simp only [bind, Except.bind, pure, Except.pure, reduceCtorEq, false_iff, not_not]
    exact valid
  · rw [if_neg valid]
    simp only [ScalarType.sized, bind, Except.bind, true_iff]
    exact valid

/-! ### There and back, and in several steps -/

theorem partsAt_back (wide : a.width ≤ b.width)
    (raw : b.raw.toNat = a.raw.toNat * twoPow (b.width - a.width))
    (inside : a.raw.toNat < twoPow a.width) : b.partsAt a.width back = a.raw.toNat := by
  have positive := twoPow_pos (b.width - a.width)
  by_cases same : b.width ≤ a.width
  · have equal : a.width = b.width := by omega
    rw [partsAt_of_le same, raw, equal, Nat.sub_self, twoPow_zero, Nat.mul_one, Nat.mul_one]
  · have narrow : a.width < b.width := Nat.lt_of_not_le same
    cases back with
    | truncate => rw [partsAt_truncate (Nat.le_of_lt narrow), raw, Nat.mul_div_cancel _ positive]
    | round =>
      rw [partsAt_round narrow, raw, roundDiv_of_dvd positive (Nat.dvd_mul_left _ _),
        Nat.mul_div_cancel _ positive, Nat.mod_eq_of_lt inside]

theorem resize_back (fits : (Scalar.angle a).Fits) (wide : a.width ≤ m)
    (h : a.resize m narrowing = .ok b) : b.resize a.width back = .ok a := by
  obtain ⟨width, fits'⟩ := fits_of_resize fits h
  obtain ⟨-, -, raw⟩ := (resize_eq_ok_iff fits).mp h
  subst width
  rw [partsAt_of_le wide] at raw
  exact (resize_eq_ok_iff fits').mpr ⟨fits.1, rfl, (partsAt_back wide raw fits.2).symm⟩

theorem resize_truncate_of_truncate (fits : (Scalar.angle a).Fits) (narrow : n ≤ m)
    (first : m ≤ a.width) (h : a.resize m .truncate = .ok b) :
    b.resize n .truncate = a.resize n .truncate := by
  by_cases valid : 1 ≤ n ∧ n ≤ 64
  · obtain ⟨width, fits'⟩ := fits_of_resize fits h
    obtain ⟨-, -, raw⟩ := (resize_eq_ok_iff fits).mp h
    obtain ⟨c, resized, hc, parts⟩ := exists_resize fits valid .truncate
    rw [resized, resize_eq_ok_iff fits']
    refine ⟨valid, hc, ?_⟩
    rw [parts, partsAt_truncate (Nat.le_trans narrow first), partsAt_truncate (by omega), raw,
      partsAt_truncate first, Nat.div_div_eq_div_mul, ← twoPow_add, width]
    congr 2
    omega
  · rw [resize_eq_error_iff.mpr valid, resize_eq_error_iff.mpr valid]

/-- Through any widths that fall to the last one, the bits dropped are those of one step. -/
theorem foldlM_resize_truncate (via : List Nat) (last : Nat) (fits : (Scalar.angle a).Fits)
    (falling : (a.width :: via ++ [last]).Pairwise (· ≥ ·)) (filled : ∀ m ∈ via, 1 ≤ m) :
    (via ++ [last]).foldlM (fun b m => b.resize m .truncate) a = a.resize last .truncate := by
  induction via generalizing a with
  | nil => simp
  | cons m via ih =>
    obtain ⟨below, rest⟩ := List.pairwise_cons.mp falling
    obtain ⟨low, others⟩ := List.forall_mem_cons.mp filled
    have narrow : m ≤ a.width := below m (by simp)
    have onward : last ≤ m := (List.pairwise_cons.mp rest).1 last (by simp)
    have high : a.width ≤ 64 := fits.1.2
    obtain ⟨b, first, width, -⟩ := exists_resize (m := m) fits ⟨low, by omega⟩ .truncate
    have fits' := (fits_of_resize fits first).2
    subst width
    rw [List.cons_append, List.foldlM_cons, first]
    exact (ih fits' rest others).trans (resize_truncate_of_truncate fits onward narrow first)

/-- An angle has a width from 1 to 64 and no other. At one that is no narrower than its own it
is the same fraction of a turn, and at a narrower one the fraction without the bits that are
dropped, or the nearest one, where a full turn is zero. Widened and brought back it is itself,
and truncated in several steps it is truncated in one. -/
theorem resizes_exactly (fits : (Scalar.angle a).Fits) :
    (∀ m narrowing, (a.resize m narrowing = .error (.invalidWidth .angle m) ↔
        ¬(1 ≤ m ∧ m ≤ 64)) ∧
      (1 ≤ m ∧ m ≤ 64 → ∃ b, a.resize m narrowing = .ok b ∧ b.width = m ∧
        b.raw.toNat < twoPow m ∧
        (a.width ≤ m → b.raw.toNat = a.raw.toNat * twoPow (m - a.width)) ∧
        (m < a.width → narrowing = .truncate →
          b.raw.toNat = a.raw.toNat / twoPow (a.width - m)) ∧
        (m < a.width → narrowing = .round →
          ∃ k, IsNearest a.raw.toNat (twoPow (a.width - m)) k ∧
            b.raw.toNat = k % twoPow m))) ∧
    (∀ m narrowing back, a.width ≤ m → m ≤ 64 →
      ∃ b, a.resize m narrowing = .ok b ∧ b.resize a.width back = .ok a) ∧
    ∀ via last, (a.width :: via ++ [last]).Pairwise (· ≥ ·) → (∀ m ∈ via, 1 ≤ m) →
      (via ++ [last]).foldlM (fun b m => b.resize m .truncate) a = a.resize last .truncate := by
  refine ⟨fun m narrowing => ⟨resize_eq_error_iff, fun valid => ?_⟩, ?_, ?_⟩
  · obtain ⟨b, resized, width, raw⟩ := exists_resize fits valid narrowing
    refine ⟨b, resized, width, raw ▸ partsAt_lt fits.2, fun wide => ?_, ?_, ?_⟩
    · rw [raw, partsAt_of_le wide]
    · rintro narrow rfl
      rw [raw, partsAt_truncate (Nat.le_of_lt narrow)]
    · rintro narrow rfl
      exact ⟨_, isNearest_roundDiv _ (twoPow_pos _), by rw [raw, partsAt_round narrow]⟩
  · intro m narrowing back wide high
    obtain ⟨b, resized, -⟩ := exists_resize fits ⟨Nat.le_trans fits.1.1 wide, high⟩ narrowing
    exact ⟨b, resized, resize_back fits wide resized⟩
  · exact fun via last => foldlM_resize_truncate via last fits

theorem resizes_exactly_of_full_turn :
    (Scalar.angle ⟨29, 5⟩).Fits ∧ (⟨29, 5⟩ : Angle).resize 2 .round = .ok ⟨0, 2⟩ ∧
      IsNearest 29 8 4 := by
  have fits : (Scalar.angle ⟨29, 5⟩).Fits := by decide
  have value : (⟨29, 5⟩ : Angle).resize 2 .round = .ok ⟨0, 2⟩ := rfl
  obtain ⟨b, resized, -, -, -, -, rounds⟩ := ((resizes_exactly fits).1 2 .round).2 (by decide)
  cases value.symm.trans resized
  obtain ⟨k, nearest, -⟩ := rounds (by decide) rfl
  obtain rfl : 4 = k := (isNearest_iff (by decide)).mp nearest
  exact ⟨fits, value, nearest⟩

end QasmValues.Angle
