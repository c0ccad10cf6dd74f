import QasmValues.Proofs.Bits.Slice
import QasmValues.Proofs.Scalar.Cast

/-! Scalars as bit strings.
An integer, an angle and a bit string have as many bits as their width. A value of
the same type can be given any other bits, and those are what it then has: reading
an integer as bits undoes the sign extension of its word. So bits are written to a scalar
as they are to its bit string, and the word that is made of them fits again. -/

namespace QasmValues.Scalar

variable {v y : Scalar} {b c value : Bits} {spec : IndexSpec}

theorem exists_withAllBits (valid : v.type.Valid) (bits : v.bits = .ok b)
    (same : c.length = b.length) :
    ∃ y, v.withAllBits c = .ok y ∧ y.type = v.type ∧ y.bits = .ok c := by
  have source := bits_eq_ok bits
  rw [← same] at source
  cases v with
  | int n w =>
    obtain rfl : w = c.length := Option.some.inj (source.resolve_left nofun)
    have word := Bits.toNat_toWord (b := c) valid.2
    refine ⟨_, rfl, rfl, congrArg Except.ok ?_⟩
    rw [Bits.ofNat_congr (toNat_toUInt64_wrapInt_mod _ valid.1 valid.2), word, Bits.ofNat_toNat]
  | uint n w =>
    obtain rfl : w = c.length := Option.some.inj (source.resolve_left nofun)
    have word := Bits.toNat_toWord (b := c) valid.2
    have value := toNat_wrapUInt c.toWord.toNat valid.2
    have bound := Int.emod_eq_of_lt (Int.natCast_nonneg _) (Int.ofNat_lt.mpr c.toNat_lt)
    rw [word, bound] at value
    refine ⟨_, rfl, rfl, congrArg Except.ok ?_⟩
    rw [word, Int.natCast_inj.mp value, Bits.ofNat_toNat]
  | angle a =>
    have same : a.width = c.length := Option.some.inj (source.resolve_left nofun)
    have room : (ScalarType.angle c.length).Valid := same ▸ valid
    refine ⟨.angle ⟨c.toWord, c.length⟩, ?_, congrArg ScalarType.angle same.symm, ?_⟩
    · exact bind_eq_ok_iff.mpr ⟨_, Angle.ofBits_eq_ok_iff.mpr ⟨room, rfl⟩, rfl⟩
    · rw [Scalar.bits, Angle.toBits, Bits.toNat_toWord room.2, Bits.ofNat_toNat]
  | bit d =>
    cases bits
    exact ⟨_, rfl, congrArg ScalarType.bit (Bits.width_congr same), rfl⟩
  | bool | float | complex | duration | stretch => cases bits

theorem bits_of_setSlice (valid : v.type.Valid) (h : v.setSlice spec value = .ok y) :
    ∃ b c, v.bits = .ok b ∧ b.setSlice spec value = .ok c ∧ y.type = v.type ∧ y.bits = .ok c := by
  obtain ⟨b, bits, h⟩ := bind_eq_ok_iff.mp h
  obtain ⟨c, set, h⟩ := bind_eq_ok_iff.mp h
  obtain ⟨z, given, type, held⟩ := exists_withAllBits valid bits (Bits.length_setSlice set)
  rw [given] at h
  cases h
  exact ⟨b, c, bits, set, type, held⟩

theorem slice_of_setSlice {positions : List Nat} (valid : v.type.Valid)
    (h : v.setSlice spec value = .ok y) (bits : v.bits = .ok b)
    (resolved : spec.resolve b.length = .ok positions) (distinct : positions.Nodup) :
    y.slice spec = .ok value := by
  obtain ⟨_, c, read, set, -, held⟩ := bits_of_setSlice valid h
  cases read.symm.trans bits
  rw [Scalar.slice, held]
  exact Bits.slice_of_setSlice set resolved distinct

/-! ### Writes through the bit string -/

theorem bits_of_not_bitIndexable (h : v.type.isBitIndexable = false) :
    v.bits = .error (.notBitIndexable (.single v.type)) := by
  cases v with
  | int | uint | angle | bit => cases h
  | bool | float | complex | duration | stretch => rfl

theorem exists_bits_of_bitIndexable (h : v.type.isBitIndexable = true) : ∃ b, v.bits = .ok b := by
  cases v with
  | int | uint | angle | bit => exact ⟨_, rfl⟩
  | bool | float | complex | duration | stretch => cases h

theorem setSlice_of_bits (bits : v.bits = .ok b) :
    v.setSlice spec value = b.setSlice spec value >>= v.withAllBits := by
  rw [Scalar.setSlice, bits]
  rfl

theorem wordFits_of_withAllBits (fits : v.WordFits) (h : v.withAllBits c = .ok y) :
    y.WordFits := by
  cases v with
  | int n w =>
    cases h
    exact ⟨fits.1, wrapInt_range _ fits.1.1 fits.1.2⟩
  | uint n w =>
    cases h
    exact ⟨fits.1, wrapUInt_lt _ fits.1.2⟩
  | angle a =>
    obtain ⟨made, fresh, h⟩ := bind_eq_ok_iff.mp h
    cases h
    exact (Angle.fits_of_ofBits fresh).2
  | bit d =>
    cases h
    trivial
  | bool | float | complex | duration | stretch => cases h

theorem exists_withAllBits_of_wordFits (fits : v.WordFits) (bits : v.bits = .ok b)
    (same : c.length = b.length) :
    ∃ y, v.withAllBits c = .ok y ∧ y.type = v.type ∧ y.bits = .ok c := by
  cases v with
  | int | uint | angle => exact exists_withAllBits fits.1 bits same
  | bit d =>
    cases bits
    exact ⟨_, rfl, congrArg ScalarType.bit (Bits.width_congr same), rfl⟩
  | bool | float | complex | duration | stretch => cases bits

theorem fits_of_withAllBits (fits : v.Fits) (bits : v.bits = .ok b) (same : c.length = b.length)
    (h : v.withAllBits c = .ok y) : y.Fits := by
  cases v with
  | int n w =>
    cases h
    exact wordFits_of_withAllBits (v := .int n w) fits rfl
  | uint n w =>
    cases h
    exact wordFits_of_withAllBits (v := .uint n w) fits rfl
  | angle a =>
    obtain ⟨made, fresh, h⟩ := bind_eq_ok_iff.mp h
    cases h
    exact (Angle.fits_of_ofBits fresh).2
  | bit d =>
    cases bits
    cases h
    rw [Fits, same]
    exact fits
  | bool | float | complex | duration | stretch => cases bits

/-- The value `y` is `x`, whose bits are `b`, with the bits `value` written to a slice. -/
structure Rewritten (x : Scalar) (b : Bits) (spec : IndexSpec) (value c : Bits) (y : Scalar) :
    Prop where
  type : y.type = x.type
  wordFits : y.WordFits
  fits : x.Fits → y.Fits
  bits : y.bits = .ok c
  others : ∀ positions, spec.resolve b.length = .ok positions →
    ∀ position, position ∉ positions → c.toList[position]? = b.toList[position]?
  read : ∀ positions, spec.resolve b.length = .ok positions → positions.Nodup →
    y.slice spec = .ok value

theorem exists_rewritten (fits : v.WordFits) (bits : v.bits = .ok b)
    (set : b.setSlice spec value = .ok c) :
    ∃ y, v.setSlice spec value = .ok y ∧ v.Rewritten b spec value c y := by
  obtain ⟨y, made, type, held⟩ :=
    exists_withAllBits_of_wordFits fits bits (Bits.length_setSlice set)
  have wordFits := wordFits_of_withAllBits fits made
  refine ⟨y, ?_, type, wordFits, fun whole => ?_, held, fun positions resolved => ?_,
    fun positions resolved distinct => ?_⟩
  · rw [setSlice_of_bits bits]
    exact bind_eq_ok_iff.mpr ⟨c, set, made⟩
  · exact fits_of_withAllBits whole bits (Bits.length_setSlice set) made
  · exact (Bits.overwritten_of_setSlice set resolved).others
  · rw [Scalar.slice, held]
    exact Bits.slice_of_setSlice set resolved distinct

/-- Bits can be written to integers, angles and bit strings only, and to nothing else for this
reason. A write to one of them is a write to its bits: it fails as that fails, and otherwise
yields the value of the same type that has the bits so written. Its word fits the type, the
bits outside the slice stay, and where no position repeats the slice is what was written. -/
theorem setSlice_through_bits (x : Scalar) (spec : IndexSpec) (value : Bits)
    (fits : x.WordFits) :
    (∀ t, x.setSlice spec value = .error (.notBitIndexable t) ↔
      x.type.isBitIndexable = false ∧ t = .single x.type) ∧
    (x.type.isBitIndexable = true → ∃ b, x.bits = .ok b ∧
      match b.setSlice spec value with
      | .error e => x.setSlice spec value = .error e
      | .ok c => ∃ y, x.setSlice spec value = .ok y ∧ x.Rewritten b spec value c y) := by
  have through (indexable : x.type.isBitIndexable = true) : ∃ b, x.bits = .ok b ∧
      match b.setSlice spec value with
      | .error e => x.setSlice spec value = .error e
      | .ok c => ∃ y, x.setSlice spec value = .ok y ∧ x.Rewritten b spec value c y := by
    obtain ⟨b, bits⟩ := exists_bits_of_bitIndexable indexable
    refine ⟨b, bits, ?_⟩
    cases set : b.setSlice spec value with
    | error e =>
      rw [setSlice_of_bits bits]
      exact bind_eq_error_iff.mpr (.inl set)
    | ok c => exact exists_rewritten fits bits set
  refine ⟨fun t => ?_, through⟩
  cases indexable : x.type.isBitIndexable with
  | false =>
    rw [Scalar.setSlice, bits_of_not_bitIndexable indexable]
    simp [bind, Except.bind, eq_comm]
  | true =>
    obtain ⟨b, -, outcome⟩ := through indexable
    simp only [Bool.true_eq_false, false_and, iff_false]
    intro failed
    split at outcome
    · rename_i e set
      cases outcome.symm.trans failed
      exact Bits.setSlice_ne_notBitIndexable t set
    · obtain ⟨y, made, -⟩ := outcome
      cases made.symm.trans failed

theorem setSlice_through_bits_of_sign :
    let x : Scalar := .int (-2) 64
    let y : Scalar := .int 9223372036854775807 64
    let spec : IndexSpec := .set [-1, 0, 63]
    let value : Bits := ⟨[true, true, false]⟩
    x.WordFits ∧ (∃ b c, x.bits = .ok b ∧ x.setSlice spec value = .ok y ∧
      x.Rewritten b spec value c y) ∧
    (Scalar.bool true).setSlice spec value = .error (.notBitIndexable (.single .bool)) := by
  intro x y spec value
  have fits : x.WordFits := by decide
  have set : x.setSlice spec value = .ok y := by decide +kernel
  obtain ⟨b, bits, outcome⟩ := (setSlice_through_bits x spec value fits).2 rfl
  obtain ⟨refused, -⟩ := setSlice_through_bits (.bool true) spec value trivial
  refine ⟨fits, ⟨b, ?_⟩, (refused _).mpr ⟨rfl, rfl⟩⟩
  split at outcome
  · cases outcome.symm.trans set
  · rename_i c _
    obtain ⟨z, made, rewritten⟩ := outcome
    cases made.symm.trans set
    exact ⟨c, bits, set, rewritten⟩

end QasmValues.Scalar
