import QasmValues.Proofs.Bits.Rotation
import QasmValues.Proofs.Builtin.Call
import QasmValues.Proofs.Scalar.Reinterpretation

/-! The rotations of bit strings and of unsigned integers.
An unsigned integer is rotated as the bits of its width. The distance becomes a signed word
and is negated there for a rotation to the right, so that a call moves every bit by the
number that the word holds: the exact one as long as it is in the range of the word. A
number outside misses by the number of words, which shows unless the bits repeat so. An
integer may always be cast to its bits before the rotation or after it. -/

namespace QasmValues

theorem toInt_toInt64 (n : UInt64) : n.toInt64.toInt = (n.toNat : Int).bmod (twoPow 64) := by
  rw [← Int64.toInt_toBitVec, UInt64.toBitVec_toInt64, BitVec.toInt_eq_toNat_bmod]
  rfl

namespace Bits

variable {b : Bits} {k : Int}

theorem ofNat_toWord {width : Nat} (length : b.length = width) (high : width ≤ 64) :
    ofNat b.toWord.toNat width = b := by
  subst length
  rw [toNat_toWord high, ofNat_toNat]

/-- A turn by less than the number of words is a turn by the word it becomes, unless that
wraps and the bits show it. -/
theorem turn_eq_turn_bmod_iff (b : Bits) (low : -(twoPow 64 : Int) ≤ k) (high : k < twoPow 64) :
    b.turn k = b.turn (k.bmod (twoPow 64)) ↔ InWord k ∨ b.turn (twoPow 64) = b := by
  have words : twoPow 64 = 18446744073709551616 := rfl
  have half : twoPow 63 = 9223372036854775808 := rfl
  rw [turn_eq_turn_iff, InWord]
  by_cases inside : -(twoPow 63 : Int) ≤ k ∧ k < twoPow 63
  · rw [Int.bmod_eq_of_le (by omega) (by omega), sub_self]
    simp [inside]
  · have wrapped : k - k.bmod (twoPow 64) = twoPow 64 ∨ k - k.bmod (twoPow 64) = -twoPow 64 := by
      have congruent := Int.bmod_emod (x := k) (m := twoPow 64)
      have lower := Int.le_bmod (x := k) (twoPow_pos 64)
      have upper := Int.bmod_lt (x := k) (twoPow_pos 64)
      rw [words] at congruent lower upper low high ⊢
      rw [half] at inside
      omega
    rw [or_iff_right inside]
    obtain above | below := wrapped
    · rw [above]
    · rw [below, turn_neg_eq_iff]

end Bits

namespace Builtin

variable {f : Builtin} {complex : Complex.Functions} {target v : Scalar} {b : Bits} {s : Int64}
variable {w u : Nat} {d j k : Int}

/-- A call gives a value of the type of its first argument, with all of its bits moved up by
`k` positions around the end. -/
def Rotates (f : Builtin) (complex : Complex.Functions) (target v : Scalar) (k : Int) : Prop :=
  ∃ r b c, f.call complex [target, v] = .ok r ∧ r.type = target.type ∧ target.bits = .ok b ∧
    r.bits = .ok c ∧ b.Moved k c

/-- How far up a rotation by a distance moves every bit. -/
inductive Rises (d : Int) : Builtin → Int → Prop
  | left : Rises d .rotl d
  | right : Rises d .rotr (-d)

theorem Rises.bounds (rises : Rises d f k) (integer : v.type ∈ ScalarType.integers u)
    (value : v.payload? = some d) : -(twoPow 64 : Int) ≤ k ∧ k < twoPow 64 := by
  have words : twoPow 64 = 18446744073709551616 := rfl
  have range : -(2 ^ 63 : Int) ≤ d ∧ d < twoPow 64 := by
    cases v with
    | int n w =>
      cases value
      have low := n.le_toInt
      have high := n.toInt_lt
      omega
    | uint n w =>
      cases value
      have high := n.toNat_lt
      omega
    | bool | float | angle | bit | complex | duration | stretch =>
      simp [ScalarType.integers, Scalar.type] at integer
  cases rises <;> omega

theorem exists_distance (integer : v.type ∈ ScalarType.integers u) (value : v.payload? = some d) :
    ∃ s, distance? v = some s ∧ s.toInt = d.bmod (twoPow 64) := by
  cases v with
  | int n w =>
    cases value
    exact ⟨n, rfl, n.toInt_bmod.symm⟩
  | uint n w =>
    cases value
    exact ⟨n.toInt64, rfl, toInt_toInt64 n⟩
  | bool | float | angle | bit | complex | duration | stretch =>
    simp [ScalarType.integers, Scalar.type] at integer

theorem call_bit (h : f = .rotl ∧ j = s.toInt ∨ f = .rotr ∧ j = (-s).toInt)
    (distance : distance? v = some s) (b : Bits) :
    f.call complex [.bit b, v] = .ok (.bit (b.turn j)) := by
  rcases h with ⟨rfl, rfl⟩ | ⟨rfl, rfl⟩ <;> cases v <;> cases distance <;> rfl

theorem call_uint (h : f = .rotl ∧ j = s.toInt ∨ f = .rotr ∧ j = (-s).toInt)
    (distance : distance? v = some s) (n : UInt64) (w : Nat) :
    f.call complex [.uint n w, v] = .ok (.uint ((Bits.ofNat n.toNat w).turn j).toWord w) := by
  rcases h with ⟨rfl, rfl⟩ | ⟨rfl, rfl⟩ <;> cases v <;> cases distance <;> rfl

theorem exists_call (h : f = .rotl ∧ j = s.toInt ∨ f = .rotr ∧ j = (-s).toInt)
    (distance : distance? v = some s) (kind : target.type = .bit w ∨ target.type = .uint w)
    (fits : target.Fits) (bits : target.bits = .ok b) :
    ∃ r, f.call complex [target, v] = .ok r ∧ r.type = target.type ∧ r.bits = .ok (b.turn j) := by
  cases target with
  | bit c =>
    cases bits
    have type := congrArg ScalarType.bit (Bits.width_congr (b.length_turn j))
    exact ⟨_, call_bit h distance b, type, rfl⟩
  | uint n width =>
    cases bits
    have length : ((Bits.ofNat n.toNat width).turn j).length = width := by simp
    have word := Bits.ofNat_toWord length fits.1.2
    exact ⟨_, call_uint h distance n width, rfl, congrArg Except.ok word⟩
  | bool | int | float | angle | complex | duration | stretch => simp [Scalar.type] at kind

theorem exists_call_of_rises (rises : Rises d f k)
    (integer : v.type ∈ ScalarType.integers u) (value : v.payload? = some d)
    (kind : target.type = .bit w ∨ target.type = .uint w) (fits : target.Fits)
    (bits : target.bits = .ok b) :
    ∃ r, f.call complex [target, v] = .ok r ∧ r.type = target.type ∧
      r.bits = .ok (b.turn (k.bmod (twoPow 64))) := by
  obtain ⟨s, distance, word⟩ := exists_distance integer value
  cases rises with
  | left => exact exists_call (.inl ⟨rfl, word.symm⟩) distance kind fits bits
  | right =>
    have negated : (-d).bmod (twoPow 64) = (-s).toInt := by
      rw [Int64.toInt_neg, word]
      exact Int.bmod_neg_bmod.symm
    exact exists_call (.inr ⟨rfl, negated⟩) distance kind fits bits

theorem rotates_iff {r : Scalar} (call : f.call complex [target, v] = .ok r)
    (type : r.type = target.type) (bits : target.bits = .ok b) (turned : r.bits = .ok (b.turn j)) :
    Rotates f complex target v k ↔ b.turn k = b.turn j := by
  constructor
  · rintro ⟨r', b', c, call', -, bits', turned', moved⟩
    cases call.symm.trans call'
    cases bits.symm.trans bits'
    cases turned.symm.trans turned'
    exact (Bits.moved_iff.mp moved).symm
  · intro same
    exact ⟨r, b, b.turn j, call, type, bits, turned, Bits.moved_iff.mpr same.symm⟩

/-- A call moves every bit by the word that its distance makes: by the exact number of
positions when that is in the range of the word, and otherwise only if a turn by the number
of words leaves the bits alone, as it does where their number is a power of two. -/
theorem rotates_exactly (kind : target.type = .bit w ∨ target.type = .uint w)
    (fits : target.Fits) (integer : v.type ∈ ScalarType.integers u)
    (value : v.payload? = some d) :
    ∃ b, target.bits = .ok b ∧ b.length = w ∧
      (∀ f k, Rises d f k → Rotates f complex target v (k.bmod (twoPow 64)) ∧
        (Rotates f complex target v k ↔ InWord k ∨ b.turn (twoPow 64) = b)) ∧
      ((∃ e ≤ 64, w = twoPow e) → b.turn (twoPow 64) = b) := by
  obtain ⟨b, bits, length⟩ : ∃ b, target.bits = .ok b ∧ b.length = w := by
    cases target with
    | bit c =>
      obtain h | h := kind <;> cases h
      exact ⟨c, rfl, (Bits.width_of_le fits.2).symm⟩
    | uint n width =>
      obtain h | h := kind <;> cases h
      exact ⟨_, rfl, Bits.length_ofNat _ _⟩
    | bool | int | float | angle | complex | duration | stretch => simp [Scalar.type] at kind
  refine ⟨b, bits, length, fun f k rises => ?_, fun power => ?_⟩
  · obtain ⟨r, call, type, turned⟩ := exists_call_of_rises rises integer value kind fits bits
    obtain ⟨low, high⟩ := rises.bounds integer value
    refine ⟨(rotates_iff call type bits turned).mpr rfl, ?_⟩
    rw [rotates_iff call type bits turned, b.turn_eq_turn_bmod_iff low high]
  · rw [← length] at power
    exact Bits.turn_of_dvd (Bits.dvd_twoPow_iff.mpr power)

theorem rotates_exactly_of_negation :
    let v : Scalar := .uint 9223372036854775808 64
    Scalar.Fits (.uint 19 5) ∧ v.payload? = some (twoPow 63) ∧
      Rotates .rotr .polar (.uint 19 5) v (-twoPow 63) := by
  intro v
  have fits : Scalar.Fits (.uint 19 5) := by decide
  have integer : v.type ∈ ScalarType.integers 64 := .tail _ (.head _)
  obtain ⟨b, -, -, moves, -⟩ := rotates_exactly (w := 5) (.inr rfl) fits integer rfl
  exact ⟨fits, rfl, (moves .rotr _ .right).2.mpr (.inl (by decide))⟩

/-- Three bits are rotated by that distance to the left, and by the most negative one to
the right: each time the bits are moved as far in the other direction. -/
theorem not_rotates_of_wide_distance :
    let target : Scalar := .bit ⟨[true, false, false]⟩
    let wide : Scalar := .uint 9223372036854775808 64
    let lowest : Scalar := .int Int64.minValue 64
    (call .rotl .polar [target, wide] = .ok (.bit ⟨[false, true, false]⟩) ∧
        ¬Rotates .rotl .polar target wide (twoPow 63)) ∧
      call .rotr .polar [target, lowest] = .ok (.bit ⟨[false, true, false]⟩) ∧
        ¬Rotates .rotr .polar target lowest (twoPow 63) := by
  intro target wide lowest
  have left : call .rotl .polar [target, wide] = .ok (.bit ⟨[false, true, false]⟩) := by decide
  have right : call .rotr .polar [target, lowest] = .ok (.bit ⟨[false, true, false]⟩) := by decide
  refine ⟨⟨left, ?_⟩, right, ?_⟩
  · rw [rotates_iff (j := 1) left rfl rfl rfl]
    decide
  · rw [rotates_iff (j := 1) right rfl rfl rfl]
    decide

/-! ### Integers and their bits -/

theorem cast_uint_bit (n : UInt64) (valid : (ScalarType.uint w).Valid) :
    (Scalar.uint n w).cast (.bit w) = .ok (.bit (.ofNat n.toNat w)) :=
  Scalar.cast_bit (by simp [Scalar.type, ScalarType.words]) valid rfl

theorem call_popcount_turn (b : Bits) (j : Int) :
    call .popcount complex [.bit (b.turn j)] = call .popcount complex [.bit b] := by
  change Except.ok (Scalar.uint (UInt64.ofNat (b.turn j).popcount) countWidth) = _
  rw [b.popcount_turn j]
  rfl

/-- An unsigned integer may be cast to its bits before a rotation or after it, to either side
and by any distance. The rotated number fits its width again, and as many bits are set. -/
theorem rotation_through_bits {x : Scalar} (h : f = .rotl ∨ f = .rotr) (kind : x.type = .uint w)
    (fits : x.Fits) (integer : v.type ∈ ScalarType.integers u) :
    ∃ r b c, f.call complex [x, v] = .ok r ∧ r.type = .uint w ∧ r.Fits ∧
      r.cast (.bit w) = .ok (.bit c) ∧ x.cast (.bit w) = .ok (.bit b) ∧
      f.call complex [.bit b, v] = .ok (.bit c) ∧ c.popcount = b.popcount ∧
      call .popcount complex [.bit c] = call .popcount complex [.bit b] := by
  obtain ⟨n, rfl⟩ : ∃ n, x = .uint n w := by
    cases x <;> simp_all [Scalar.type]
  obtain ⟨d, value⟩ := Scalar.exists_payload (ScalarType.words_of_integers integer)
  obtain ⟨s, distance, -⟩ := exists_distance integer value
  obtain ⟨j, turns⟩ : ∃ j, f = .rotl ∧ j = s.toInt ∨ f = .rotr ∧ j = (-s).toInt := by
    obtain rfl | rfl := h <;> simp
  have room := fits.1
  have length : ((Bits.ofNat n.toNat w).turn j).length = w := by simp
  have fits' := Scalar.fits_uint_toWord (b := (Bits.ofNat n.toNat w).turn j) (by rwa [length])
  have cast' := cast_uint_bit ((Bits.ofNat n.toNat w).turn j).toWord room
  rw [length] at fits'
  rw [Bits.ofNat_toWord length room.2] at cast'
  exact ⟨_, _, _, call_uint turns distance n w, rfl, fits', cast', cast_uint_bit n room,
    call_bit turns distance _, Bits.popcount_turn _ j, call_popcount_turn _ j⟩

theorem rotation_through_bits_of_wide :
    let v : Scalar := .uint 9223372036854775808 64
    (Scalar.type (.uint 19 5) = .uint 5 ∧ Scalar.Fits (.uint 19 5) ∧
      v.type ∈ ScalarType.integers 64) ∧
    ∃ r b c, call .rotr .polar [.uint 19 5, v] = .ok r ∧ r.Fits ∧ r.cast (.bit 5) = .ok (.bit c) ∧
      Scalar.cast (.uint 19 5) (.bit 5) = .ok (.bit b) ∧
      call .rotr .polar [.bit b, v] = .ok (.bit c) ∧ c.popcount = b.popcount := by
  intro v
  have fits : Scalar.Fits (.uint 19 5) := by decide
  have integer : v.type ∈ ScalarType.integers 64 := .tail _ (.head _)
  obtain ⟨r, b, c, value, -, fits', cast', cast, value', count, -⟩ :=
    rotation_through_bits (f := .rotr) (.inr rfl) rfl fits integer
  exact ⟨⟨rfl, fits, integer⟩, r, b, c, value, fits', cast', cast, value', count⟩

end Builtin

end QasmValues
