import QasmValues.Proofs.Outcome
import QasmValues.Proofs.Word
import QasmValues.Scalar.Cast

/-! Which casts yield values that fit their width.
Integers and angles are held in words wider than they are, so a cast must bring
each word into the range of its target. Every cast does except one: the number
of `true` is one also in `int[1]`, where the only numbers are zero and minus one. -/

namespace QasmValues

namespace Angle

theorem ofRaw_eq_ok_iff {raw : UInt64} {width : Nat} {a : Angle} :
    ofRaw raw width = .ok a ↔ (Scalar.angle ⟨raw, width⟩).Fits ∧ a = ⟨raw, width⟩ := by
  rw [ofRaw, ScalarType.validate_bind_eq_ok_iff, Scalar.Fits, and_assoc]
  refine and_congr_right fun _ => ?_
  dsimp only
  split
  · rename_i inside
    rw [pure_eq_ok_iff, and_iff_right inside]
    exact eq_comm
  · rename_i outside
    simp only [reduceCtorEq, outside, false_and]

theorem fits_of_ofRadians {radians : Float} {width : Nat} {a : Angle}
    (h : ofRadians radians width = .ok a) : a.width = width ∧ (Scalar.angle a).Fits := by
  obtain ⟨valid, h⟩ := ScalarType.validate_bind_eq_ok_iff.mp h
  split at h
  · rw [pure_eq_ok_iff] at h
    subst h
    refine ⟨rfl, valid, ?_⟩
    dsimp only
    split
    · rename_i inside
      rwa [toNat_ofNat_of_lt_twoPow valid.2 inside]
    · exact twoPow_pos width
  · cases h

theorem ofBits_eq_ok_iff {b : Bits} {a : Angle} :
    ofBits b = .ok a ↔ (ScalarType.angle b.length).Valid ∧ a = ⟨b.toWord, b.length⟩ := by
  unfold ofBits
  split
  · rw [ScalarType.validate_bind_eq_ok_iff, pure_eq_ok_iff, eq_comm]
  · rename_i long
    simp only [reduceCtorEq, false_iff, not_and]
    intro valid
    exact absurd (Nat.le_trans valid.2 (by decide)) long

theorem fits_of_ofBits {b : Bits} {a : Angle} (h : ofBits b = .ok a) :
    a.width = b.length ∧ (Scalar.angle a).Fits := by
  obtain ⟨valid, rfl⟩ := ofBits_eq_ok_iff.mp h
  refine ⟨rfl, valid, ?_⟩
  rw [Bits.toNat_toWord valid.2]
  exact b.toNat_lt

end Angle

namespace Scalar

/-- The word of an integer or of an angle is in the range of its width. Values
that are not held in a word have nothing to satisfy. -/
def WordFits : Scalar → Prop
  | .int n w => Fits (.int n w)
  | .uint n w => Fits (.uint n w)
  | .angle a => Fits (.angle a)
  | .bool _ | .float _ _ | .bit _ | .complex _ _ | .duration _ | .stretch => True

instance : DecidablePred WordFits
  | .int n w => inferInstanceAs (Decidable (Fits (.int n w)))
  | .uint n w => inferInstanceAs (Decidable (Fits (.uint n w)))
  | .angle a => inferInstanceAs (Decidable (Fits (.angle a)))
  | .bool _ | .float _ _ | .bit _ | .complex _ _ | .duration _ | .stretch => .isTrue trivial

def recheck : Scalar → Except Fault Scalar
  | .int n w => ofInt n w
  | .uint n w => ofUInt n w
  | .angle a => do pure (.angle (← Angle.ofRaw a.raw a.width))
  | v => .ok v

theorem ofInt_eq_ok_iff {n : Int64} {width : Nat} {v : Scalar} :
    ofInt n width = .ok v ↔ (Scalar.int n width).Fits ∧ v = .int n width := by
  rw [ofInt, ScalarType.validate_bind_eq_ok_iff, Fits, and_assoc]
  refine and_congr_right fun valid => ?_
  rw [← signedWidth_le_iff valid.1]
  dsimp only
  split
  · simp only [reduceCtorEq, false_iff, not_and]
    omega
  · rename_i enough
    rw [pure_eq_ok_iff, and_iff_right (Nat.not_lt.mp enough)]
    exact eq_comm

theorem ofUInt_eq_ok_iff {n : UInt64} {width : Nat} {v : Scalar} :
    ofUInt n width = .ok v ↔ (Scalar.uint n width).Fits ∧ v = .uint n width := by
  rw [ofUInt, ScalarType.validate_bind_eq_ok_iff, Fits, and_assoc]
  refine and_congr_right fun valid => ?_
  rw [← unsignedWidth_le_iff valid.1]
  dsimp only
  split
  · simp only [reduceCtorEq, false_iff, not_and]
    omega
  · rename_i enough
    rw [pure_eq_ok_iff, and_iff_right (Nat.not_lt.mp enough)]
    exact eq_comm

theorem recheck_eq_ok_iff (v : Scalar) : v.recheck = .ok v ↔ v.WordFits := by
  cases v
  case int n w => simp [recheck, WordFits, ofInt_eq_ok_iff]
  case uint n w => simp [recheck, WordFits, ofUInt_eq_ok_iff]
  case angle a =>
    simp only [recheck, WordFits, bind_eq_ok_iff, pure_eq_ok_iff, Scalar.angle.injEq,
      exists_eq_right]
    simp [Angle.ofRaw_eq_ok_iff]
  all_goals simp [recheck, WordFits]

end Scalar

namespace ScalarType

theorem width_of_checkCast_bit {source : ScalarType} {n : Nat}
    (h : source.checkCast (.bit n) = .ok ()) :
    source = .bool ∧ n = 1 ∨ source.width = some n := by
  unfold checkCast at h
  split at h
  · rename_i same
    exact .inr (same ▸ rfl)
  · cases source <;> simp only [sameWidth, reduceCtorEq] at h
    case bool =>
      split at h
      · exact .inl ⟨rfl, ‹_›⟩
      · cases h
    all_goals
      split at h
      · exact .inr (congrArg some (Eq.symm ‹_›))
      · cases h

theorem width_of_checkCast_of_bit {n m : Nat} {target : ScalarType}
    (h : (bit n).checkCast target = .ok ()) (sized : target.width = some m) : m = n := by
  unfold checkCast at h
  split at h
  · rename_i same
    subst same
    exact (Option.some.inj sized).symm
  · cases target <;> simp only [sameWidth, reduceCtorEq] at h
    case bool => cases sized
    all_goals
      split at h
      · exact (Option.some.inj sized).symm.trans ‹_›
      · cases h

end ScalarType

namespace Scalar

theorem bits_eq_ok {v : Scalar} {b : Bits} (h : v.bits = .ok b) :
    v = .bit b ∨ v.type.width = some b.length := by
  cases v <;> simp only [bits, Except.ok.injEq, reduceCtorEq] at h <;> subst h
  case int n w => exact .inr (congrArg some (Bits.length_ofNat _ w).symm)
  case uint n w => exact .inr (congrArg some (Bits.length_ofNat _ w).symm)
  case angle a => exact .inr (congrArg some a.length_toBits.symm)
  case bit b => exact .inl rfl

theorem cast_eq_ok_iff {v r : Scalar} {target : ScalarType} :
    v.cast target = .ok r ↔ target.Valid ∧ v.type.checkCast target = .ok () ∧
      if v.type = target then r = v else v.convert target = .ok r := by
  rw [cast, ScalarType.validate_bind_eq_ok_iff, bind_eq_ok_iff]
  refine and_congr_right fun _ => ?_
  constructor
  · rintro ⟨⟨⟩, legal, h⟩
    refine ⟨legal, ?_⟩
    split at h
    · rename_i same
      rw [if_pos same]
      exact (pure_eq_ok_iff.mp h).symm
    · rename_i other
      rwa [if_neg other]
  · rintro ⟨legal, h⟩
    refine ⟨(), legal, ?_⟩
    split at h
    · rename_i same
      rw [if_pos same, h]
      rfl
    · rename_i other
      rwa [if_neg other]

theorem convert_int {v r : Scalar} {width : Nat} (h : v.convert (.int width) = .ok r) :
    (∃ b, v = .bool b ∧ r = .int (if b then 1 else 0) width) ∨
      v.type ≠ .bool ∧ ∃ n, r = .int (wrapInt width n) width := by
  cases v <;> simp only [convert, Except.ok.injEq, reduceCtorEq] at h
  case bool b => exact .inl ⟨b, rfl, h.symm⟩
  all_goals exact .inr ⟨nofun, _, h.symm⟩

theorem convert_uint {v r : Scalar} {width : Nat} (h : v.convert (.uint width) = .ok r) :
    (∃ b : Bool, r = .uint (if b then 1 else 0) width) ∨
      (∃ n, r = .uint (wrapUInt width n) width) ∨
      ∃ b, v = .bit b ∧ r = .uint b.toWord width := by
  cases v <;> simp only [convert, Except.ok.injEq, reduceCtorEq] at h
  case bool b => exact .inl ⟨b, h.symm⟩
  case bit b => exact .inr (.inr ⟨b, rfl, h.symm⟩)
  all_goals exact .inr (.inl ⟨_, h.symm⟩)

theorem convert_angle {v r : Scalar} {width : Nat} (h : v.convert (.angle width) = .ok r) :
    ∃ a, r = .angle a ∧ (a.width = width ∨ v.type = .bit a.width) ∧ (Scalar.angle a).Fits := by
  cases v <;> simp only [convert, ofRadians, bind_eq_ok_iff, pure_eq_ok_iff, reduceCtorEq] at h
  case float x w =>
    obtain ⟨a, ha, h⟩ := h
    have fits := Angle.fits_of_ofRadians ha
    exact ⟨a, h.symm, .inl fits.1, fits.2⟩
  case bit b =>
    obtain ⟨a, ha, h⟩ := h
    obtain ⟨length, fits⟩ := Angle.fits_of_ofBits ha
    have same : b.width = a.width := (Bits.width_of_word (length ▸ fits.1.2)).trans length.symm
    exact ⟨a, h.symm, .inr (congrArg ScalarType.bit same), fits⟩

theorem convert_bit {v r : Scalar} {width : Nat} (h : v.convert (.bit width) = .ok r) :
    ∃ b, r = .bit b ∧
      ((v.type = .bool ∧ b.length = 1) ∨ v = .bit b ∨ v.type.width = some b.length) := by
  cases v <;> simp only [convert, Except.ok.injEq] at h
  case bool b => exact ⟨⟨[b]⟩, h.symm, .inl ⟨rfl, rfl⟩⟩
  all_goals
    split at h
    · rename_i b hb
      cases h
      exact ⟨b, rfl, .inr (bits_eq_ok hb)⟩
    · cases h

theorem fits_int_one_iff {width : Nat} (valid : (ScalarType.int width).Valid) :
    (Scalar.int 1 width).Fits ↔ width ≠ 1 := by
  have low := valid.1
  have one : (1 : Int64).toInt = 1 := rfl
  have word : 1 ≤ width ∧ width ≤ wordWidth := valid
  rw [Fits, one, and_iff_right word]
  constructor
  · rintro ⟨-, bound⟩ rfl
    exact absurd bound (by decide)
  · intro wide
    have double := twoPow_eq_double (n := width - 1) (by omega)
    have positive := twoPow_pos (width - 1 - 1)
    omega

theorem fits_int_zero {width : Nat} (valid : (ScalarType.int width).Valid) :
    (Scalar.int 0 width).Fits := by
  have zero : (0 : Int64).toInt = 0 := rfl
  have positive := twoPow_pos (width - 1)
  rw [Fits, zero]
  exact ⟨valid, by omega, by omega⟩

theorem fits_uint_ofBool (b : Bool) {width : Nat} (valid : (ScalarType.uint width).Valid) :
    (Scalar.uint (if b then 1 else 0) width).Fits := by
  have low := valid.1
  have double := twoPow_eq_double low
  have positive := twoPow_pos (width - 1)
  have value : (if b then 1 else 0 : UInt64).toNat ≤ 1 := by cases b <;> decide
  exact ⟨valid, by omega⟩

theorem fits_uint_toWord {b : Bits} (valid : (ScalarType.uint b.length).Valid) :
    (Scalar.uint b.toWord b.length).Fits := by
  refine ⟨valid, ?_⟩
  rw [Bits.toNat_toWord valid.2]
  exact b.toNat_lt

theorem width_of_valid {b : Bits} {width : Nat} (valid : (ScalarType.bit width).Valid)
    (length : b.length = width) : b.width = width := by
  subst length
  exact Bits.width_of_le valid.2

theorem type_and_length_of_convert_bit {v : Scalar} {b : Bits} {width : Nat}
    (valid : (ScalarType.bit width).Valid) (legal : v.type.checkCast (.bit width) = .ok ())
    (h : v.convert (.bit width) = .ok (.bit b)) :
    b.width = width ∧ (v.Sized → b.length = width) := by
  have counted (length : b.length = width) : b.width = width ∧ (v.Sized → b.length = width) :=
    ⟨width_of_valid valid length, fun _ => length⟩
  obtain ⟨_, same, source⟩ := convert_bit h
  cases same
  rcases ScalarType.width_of_checkCast_bit legal with ⟨isBool, one⟩ | wide
  · rcases source with ⟨-, length⟩ | rfl | width
    · exact counted (length.trans one.symm)
    · cases isBool
    · rw [isBool] at width
      cases width
  · rcases source with ⟨isBool, -⟩ | rfl | length
    · rw [isBool] at wide
      cases wide
    · have same : b.width = width := Option.some.inj wide
      exact ⟨same, fun sized => (Bits.width_of_le sized).symm.trans same⟩
    · exact counted (Option.some.inj (length.symm.trans wide))

/-- A conversion along a legal pair has the type of its target, and fits it except
for the number of `true` in one signed bit. -/
theorem type_and_wordFits_of_convert {v r : Scalar} {target : ScalarType} (valid : target.Valid)
    (legal : v.type.checkCast target = .ok ()) (h : v.convert target = .ok r) :
    r.type = target ∧ (v.Sized → r.Sized ∧
      (r.WordFits ↔ ¬(v = .bool true ∧ target = .int 1))) := by
  cases target
  case bool => cases v <;> cases h <;> simp [type, Sized, WordFits]
  case int width =>
    rcases convert_int h with ⟨b, rfl, rfl⟩ | ⟨notBool, n, rfl⟩
    · refine ⟨rfl, fun _ => ⟨trivial, ?_⟩⟩
      cases b
      · simp [WordFits, fits_int_zero valid]
      · simp [WordFits, fits_int_one_iff valid]
    · have range := wrapInt_range n valid.1 valid.2
      have fits : WordFits (.int (wrapInt width n) width) := ⟨valid, range⟩
      refine ⟨rfl, fun _ => ⟨trivial, iff_of_true fits ?_⟩⟩
      rintro ⟨rfl, -⟩
      exact notBool rfl
  case uint width =>
    rcases convert_uint h with ⟨b, rfl⟩ | ⟨n, rfl⟩ | ⟨b, rfl, rfl⟩
    · simp [type, Sized, WordFits, fits_uint_ofBool b valid]
    · have fits : WordFits (.uint (wrapUInt width n) width) := ⟨valid, wrapUInt_lt n valid.2⟩
      simp [type, Sized, fits]
    · refine ⟨rfl, fun sized => ⟨trivial, iff_of_true ?_ nofun⟩⟩
      have same : width = b.length :=
        (ScalarType.width_of_checkCast_of_bit legal rfl).trans (Bits.width_of_le sized)
      subst same
      exact fits_uint_toWord valid
  case float width => cases v <;> cases h <;> simp [type, Sized, WordFits]
  case angle width =>
    obtain ⟨a, rfl, source, fits⟩ := convert_angle h
    have same : a.width = width := by
      rcases source with same | source
      · exact same
      · rw [source] at legal
        exact (ScalarType.width_of_checkCast_of_bit legal rfl).symm
    exact ⟨congrArg ScalarType.angle same, fun _ => ⟨trivial, iff_of_true fits nofun⟩⟩
  case bit width =>
    obtain ⟨b, rfl, -⟩ := convert_bit h
    obtain ⟨type, length⟩ := type_and_length_of_convert_bit valid legal h
    refine ⟨congrArg ScalarType.bit type, fun sized => ⟨?_, iff_of_true trivial nofun⟩⟩
    exact Nat.le_trans (Nat.le_of_eq (length sized)) valid.2
  all_goals cases v <;> cases h

theorem type_of_cast {v r : Scalar} {target : ScalarType} (h : v.cast target = .ok r) :
    target.Valid ∧ r.type = target := by
  obtain ⟨valid, legal, h⟩ := cast_eq_ok_iff.mp h
  refine ⟨valid, ?_⟩
  split at h
  · rename_i same
    rw [h, same]
  · exact (type_and_wordFits_of_convert valid legal h).1

theorem type_of_zero {type : ScalarType} {v : Scalar} (h : zero type = .ok v) :
    type.Valid ∧ v.type = type := by
  obtain ⟨valid, h⟩ := ScalarType.validate_bind_eq_ok_iff.mp h
  cases h
  refine ⟨valid, ?_⟩
  cases type with
  | bit width => exact congrArg ScalarType.bit (width_of_valid valid (Bits.length_zeros width))
  | bool | int | uint | float | angle | complex | duration | stretch => rfl

/-- A cast of a value whose word fits, with no more bits than a width can count, has
exactly the type of its target, and its word fits that type, so that the checked
constructors accept it. The only exception is `true` as an `int[1]`. A bit string has as
many bits as its type says. -/
theorem cast_wordFits_iff {v r : Scalar} {target : ScalarType} (fits : v.WordFits)
    (sized : v.Sized) (h : v.cast target = .ok r) :
    r.type = target ∧ (r.WordFits ↔ ¬(v = .bool true ∧ target = .int 1)) ∧
      (r.recheck = .ok r ↔ ¬(v = .bool true ∧ target = .int 1)) ∧
      (∀ b, r = .bit b → target = .bit b.length) := by
  obtain ⟨valid, legal, h⟩ := cast_eq_ok_iff.mp h
  have result : r.type = target ∧ r.Sized ∧
      (r.WordFits ↔ ¬(v = .bool true ∧ target = .int 1)) := by
    split at h
    · rename_i same
      subst h
      refine ⟨same, sized, iff_of_true fits ?_⟩
      rintro ⟨rfl, rfl⟩
      cases same
    · obtain ⟨type, word⟩ := type_and_wordFits_of_convert valid legal h
      exact ⟨type, word sized⟩
  obtain ⟨rfl, counted, word⟩ := result
  refine ⟨rfl, word, (recheck_eq_ok_iff r).trans word, ?_⟩
  rintro b rfl
  exact congrArg ScalarType.bit (Bits.width_of_le counted)

theorem cast_wordFits_iff_narrow :
    (WordFits (.int (-128) 8) ∧ Sized (.int (-128) 8)) ∧
      cast (.int (-128) 8) (.int 1) = .ok (.int 0 1) ∧ recheck (.int 0 1) = .ok (.int 0 1) := by
  have fits : WordFits (.int (-128) 8) := by decide
  have narrow : cast (.int (-128) 8) (.int 1) = .ok (.int 0 1) := rfl
  obtain ⟨-, -, accepted, -⟩ := cast_wordFits_iff fits trivial narrow
  exact ⟨⟨fits, trivial⟩, narrow, accepted.mpr nofun⟩

/-- The number of `true` does not fit one signed bit, and is not brought to it. -/
theorem not_wordFits_cast_true :
    WordFits (.bool true) ∧ cast (.bool true) (.int 1) = .ok (.int 1 1) ∧
      ¬WordFits (.int 1 1) ∧ recheck (.int 1 1) = .error (.widthMismatch 1 2) :=
  ⟨trivial, rfl, by decide, rfl⟩

end Scalar

end QasmValues
