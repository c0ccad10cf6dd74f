import Mathlib.Order.Bounds.Defs
import QasmValues.Proofs.Scalar.Payload
import QasmValues.Scalar.Literal

/-! Integer literals at their declared width.
A literal is a number of any size, and a width of its type at most that of a word. Where the
type holds the number the value is the number itself, so that nothing is lost in the word.
Otherwise the literal is refused with the least width that holds it: in two's complement for
a signed type and for a negative number, unsigned for the others. -/

namespace QasmValues

variable {family : Nat → ScalarType} {n : Int} {w k : Nat}

/-- The least width, of at least one bit, at which a family of integer types holds a number. -/
def IsLeastWidth (family : Nat → ScalarType) (n : Int) (k : Nat) : Prop :=
  IsLeast {k | 1 ≤ k ∧ (family k).Holds n} k

theorem isLeastWidth_of_le_iff (low : 1 ≤ k)
    (enough : ∀ w, 1 ≤ w → (k ≤ w ↔ (family w).Holds n)) : IsLeastWidth family n k := by
  refine ⟨⟨low, (enough k low).mp le_rfl⟩, ?_⟩
  rintro w ⟨positive, holds⟩
  exact (enough w positive).mpr holds

theorem isLeastWidth_signedWidth (n : Int) : IsLeastWidth ScalarType.int n (signedWidth n) :=
  isLeastWidth_of_le_iff (Nat.le_add_left 1 _) fun _ => signedWidth_le_iff

theorem holds_uint_natCast (m w : Nat) : (ScalarType.uint w).Holds m ↔ m < twoPow w := by
  simp [ScalarType.Holds]

theorem isLeastWidth_unsignedWidth (m : Nat) :
    IsLeastWidth ScalarType.uint m (unsignedWidth m) := by
  refine isLeastWidth_of_le_iff (Nat.le_max_right _ 1) fun w low => ?_
  rw [holds_uint_natCast, unsignedWidth_le_iff low]

namespace Scalar

/-- What a number becomes at the width `w` of a family of integer types: itself, or a fault
with the least width that holds it. -/
inductive Checked (family : Nat → ScalarType) (w : Nat) (n : Int) : Except Fault Scalar → Prop
  | taken {v : Scalar} (type : v.type = family w) (fits : v.Fits) (value : v.payload? = some n) :
    Checked family w n (.ok v)
  | refused {k : Nat} (outside : ¬(family w).Holds n)
    (least : IsLeastWidth (if n < 0 then ScalarType.int else family) n k) :
    Checked family w n (.error (.widthMismatch w k))

theorem inWord_of_holds (valid : (ScalarType.int w).Valid) (h : (ScalarType.int w).Holds n) :
    InWord n := by
  have half : twoPow (w - 1) ≤ twoPow 63 := twoPow_le_twoPow (Nat.sub_le_sub_right valid.2 1)
  obtain ⟨low, high⟩ := h
  exact ⟨by omega, by omega⟩

theorem checked_int (valid : (ScalarType.int w).Valid) :
    Checked .int w n ((Literal.integer n).bind (.int w)) := by
  have enough : signedWidth n ≤ w ↔ (ScalarType.int w).Holds n := signedWidth_le_iff valid.1
  rw [Literal.bind, (ScalarType.validate_eq_ok_iff _).mpr valid]
  change Checked .int w n (if w < signedWidth n then _ else _)
  split
  · rename_i wide
    refine .refused (fun holds => ?_) ?_
    · exact absurd (enough.mpr holds) (Nat.not_le.mpr wide)
    · simpa using isLeastWidth_signedWidth n
  · rename_i room
    have holds := enough.mp (Nat.le_of_not_lt room)
    have value := toInt_ofInt_of_inWord (inWord_of_holds valid holds)
    exact .taken rfl ⟨valid, value.symm ▸ holds⟩ (congrArg some value)

theorem checked_uint (valid : (ScalarType.uint w).Valid) :
    Checked .uint w n ((Literal.integer n).bind (.uint w)) := by
  rw [Literal.bind, (ScalarType.validate_eq_ok_iff _).mpr valid]
  change Checked .uint w n (if n < 0 then _ else if w < unsignedWidth n.toNat then _ else _)
  split
  · rename_i negative
    refine .refused (fun holds => ?_) ?_
    · exact absurd holds.1 (Int.not_le.mpr negative)
    · simpa [negative] using isLeastWidth_signedWidth n
  · rename_i nonneg
    obtain ⟨m, rfl⟩ := Int.eq_ofNat_of_zero_le (Int.not_lt.mp nonneg)
    have enough := unsignedWidth_le_iff (n := m) valid.1
    rw [Int.toNat_natCast]
    split
    · rename_i wide
      refine .refused (fun holds => ?_) ?_
      · exact absurd (enough.mpr ((holds_uint_natCast m w).mp holds)) (Nat.not_le.mpr wide)
      · simpa [nonneg] using isLeastWidth_unsignedWidth m
    · rename_i room
      have bound := enough.mp (Nat.le_of_not_lt room)
      have value := toNat_ofNat_of_lt_twoPow valid.2 bound
      exact .taken rfl ⟨valid, value.symm ▸ bound⟩ (congrArg (fun m : Nat => some (m : Int)) value)

variable {outcome : Except Fault Scalar} {v : Scalar} {e : Fault}

theorem Checked.exists_iff (h : Checked family w n outcome) :
    (∃ v, outcome = .ok v) ↔ (family w).Holds n := by
  cases h with
  | taken type fits value =>
    have holds := ((fits_iff_holds value).mp fits).2
    simpa [type] using holds
  | refused outside least => simpa using outside

theorem Checked.value (h : Checked family w n (.ok v)) :
    v.type = family w ∧ v.Fits ∧ v.payload? = some n := by
  cases h with
  | taken type fits value => exact ⟨type, fits, value⟩

theorem Checked.fault (h : Checked family w n (.error e)) :
    ∃ k, e = .widthMismatch w k ∧
      IsLeastWidth (if n < 0 then ScalarType.int else family) n k := by
  cases h with
  | refused outside least => exact ⟨_, rfl, least⟩

end Scalar

namespace Literal

theorem bind_toInt (m : Int64) (w : Nat) : (integer m.toInt).bind (.int w) = Scalar.ofInt m w := by
  simp [bind, Scalar.ofInt]

theorem bind_toNat (m : UInt64) (w : Nat) :
    (integer m.toNat).bind (.uint w) = Scalar.ofUInt m w := by
  simp [bind, Scalar.ofUInt, Int.not_lt.mpr (Int.natCast_nonneg _)]

/-- An integer literal is taken just when its declared type holds the number, and the value
is the number itself. Any other is refused with the least width that holds it, which is one
of two's complement for a negative number whatever the type is. A number that is a word is
treated as the checked constructors treat that word. -/
theorem bind_integer_exact (n : Int) {w : Nat} (low : 1 ≤ w) (high : w ≤ 64) :
    (∀ family, family = ScalarType.int ∨ family = ScalarType.uint →
      ((∃ v, (integer n).bind (family w) = .ok v) ↔ (family w).Holds n) ∧
      (∀ v, (integer n).bind (family w) = .ok v →
        v.type = family w ∧ v.Fits ∧ v.payload? = some n) ∧
      ∀ e, (integer n).bind (family w) = .error e → ∃ k, e = .widthMismatch w k ∧
        IsLeastWidth (if n < 0 then ScalarType.int else family) n k) ∧
    (∀ m : Int64, m.toInt = n → (integer n).bind (.int w) = Scalar.ofInt m w) ∧
    ∀ m : UInt64, m.toNat = n → (integer n).bind (.uint w) = Scalar.ofUInt m w := by
  refine ⟨fun family kind => ?_, ?_, ?_⟩
  · have checked : Scalar.Checked family w n ((integer n).bind (family w)) := by
      obtain rfl | rfl := kind
      · exact Scalar.checked_int ⟨low, high⟩
      · exact Scalar.checked_uint ⟨low, high⟩
    exact ⟨checked.exists_iff, fun v taken => (taken ▸ checked).value,
      fun e refused => (refused ▸ checked).fault⟩
  · rintro m rfl
    exact bind_toInt m w
  · rintro m rfl
    exact bind_toNat m w

theorem bind_integer_exact_of_negative :
    (1 ≤ 1 ∧ 1 ≤ 64) ∧ (∃ v, (integer (-1)).bind (.int 1) = .ok v ∧ v.payload? = some (-1)) ∧
      (1 ≤ 64 ∧ 64 ≤ 64) ∧
      (integer (-twoPow 127)).bind (.uint 64) = .error (.widthMismatch 64 128) ∧
        IsLeastWidth ScalarType.int (-twoPow 127) 128 := by
  obtain ⟨narrow, -⟩ := bind_integer_exact (-1) (w := 1) (by decide) (by decide)
  obtain ⟨wide, -⟩ := bind_integer_exact (-twoPow 127) (w := 64) (by decide) (by decide)
  obtain ⟨possible, taken, -⟩ := narrow ScalarType.int (.inl rfl)
  obtain ⟨v, value⟩ := possible.mpr ⟨by decide, by decide⟩
  have refused : (integer (-twoPow 127)).bind (.uint 64) = .error (.widthMismatch 64 128) := rfl
  obtain ⟨k, same, least⟩ := (wide ScalarType.uint (.inr rfl)).2.2 _ refused
  cases same
  rw [if_pos (by decide)] at least
  exact ⟨by decide, ⟨v, value, (taken v value).2.2⟩, by decide, refused, least⟩

end Literal

end QasmValues
