import QasmValues.Proofs.Scalar.Wrapping

/-! Words and bit strings of one width are the same patterns.
A word casts to the bits of the number it holds, in two's complement, and a bit
string of the same length casts to the word with these bits. Nothing is lost either
way, so a cast between the signed and the unsigned integers of one width is the
cast through their bits. -/

namespace QasmValues.Scalar

variable {v r : Scalar} {b : Bits} {s t : ScalarType} {w : Nat}

/-- The bits of `b` are those of the number that the word of `v` holds. -/
def Shows (v : Scalar) (b : Bits) : Prop :=
  ∃ p, v.payload? = some p ∧ ∀ i < b.length, b.toList[i]? = some (p.testBit i)

theorem shows_of_bits (h : v.type ∈ ScalarType.words w) (high : w ≤ 64) (bits : v.bits = .ok b) :
    v.Shows b := by
  obtain ⟨p, held⟩ := exists_payload h
  obtain rfl := Except.ok.inj ((bits_of_payload h high held).symm.trans bits)
  refine ⟨p, held, fun i bound => ?_⟩
  rw [Bits.length_ofNat] at bound
  rw [Bits.getElem?_ofNat _ bound, testBit_emod_twoPow p bound]

theorem exists_bits (h : v.type ∈ ScalarType.words w) :
    ∃ b, v.bits = .ok b ∧ b.length = w := by
  have width := ScalarType.width_of_words h
  have given : ∃ b, v.bits = .ok b := by
    cases v <;> simp [type, ScalarType.words, bits] at h ⊢
  obtain ⟨b, bits⟩ := given
  refine ⟨b, bits, ?_⟩
  rcases bits_eq_ok bits with rfl | counted
  · simp [type, ScalarType.words] at h
  · exact Option.some.inj (counted.symm.trans width)

theorem cast_bit (h : v.type ∈ ScalarType.words w) (valid : v.type.Valid) (bits : v.bits = .ok b) :
    v.cast (.bit w) = .ok (.bit b) := by
  have room := (ScalarType.valid_of_words h).mp valid
  have counted : (ScalarType.bit w).Valid := ⟨room.1, Nat.le_trans room.2 (by decide)⟩
  have target := (ScalarType.validate_eq_ok_iff _).mpr counted
  have sources := ScalarType.mem_words.mp h
  have legal : v.type.checkCast (.bit w) = .ok () := by
    rcases sources with same | same | same <;> simp [same, ScalarType.checkCast, sameWidth]
  have other : v.type ≠ .bit w := by
    rcases sources with same | same | same <;> simp [same]
  rw [cast_of_legal target legal, if_neg other]
  cases v <;> simp_all [convert, type]

theorem cast_of_bits (h : t ∈ ScalarType.words b.length) (valid : t.Valid) :
    ∃ r p, (Scalar.bit b).cast t = .ok r ∧ r.type = t ∧ r.Fits ∧ r.payload? = some p ∧
      p ≡ b.toNat [ZMOD twoPow b.length] := by
  have room := (ScalarType.valid_of_words h).mp valid
  have target := (ScalarType.validate_eq_ok_iff t).mpr valid
  have word := Bits.toNat_toWord room.2
  have spelled : (b.toWord.toNat : Int) ≡ b.toNat [ZMOD twoPow b.length] := by rw [word]
  have targets := ScalarType.mem_words.mp h
  have width : b.width = b.length := Bits.width_of_word room.2
  have legal : (Scalar.bit b).type.checkCast t = .ok () := by
    rcases targets with rfl | rfl | rfl <;> simp [type, width, ScalarType.checkCast, sameWidth]
  have other : (Scalar.bit b).type ≠ t := by
    rcases targets with rfl | rfl | rfl <;> simp [type]
  rw [cast_of_legal target legal, if_neg other]
  rcases targets with rfl | rfl | rfl
  · have range := wrapInt_range b.toWord.toNat room.1 room.2
    have agree := (wrapInt_modEq b.toWord.toNat room.1 room.2).trans spelled
    exact ⟨_, _, rfl, rfl, ⟨room, range⟩, rfl, agree⟩
  · exact ⟨_, _, rfl, rfl, fits_uint_toWord valid, rfl, spelled⟩
  · have range : b.toWord.toNat < twoPow b.length := word ▸ b.toNat_lt
    have converted : (Scalar.bit b).convert (.angle b.length) = .ok (.angle ⟨b.toWord, b.length⟩) :=
      bind_eq_ok_iff.mpr ⟨_, Angle.ofBits_eq_ok_iff.mpr ⟨valid, rfl⟩, rfl⟩
    exact ⟨_, _, converted, rfl, ⟨room, range⟩, rfl, spelled⟩

theorem bits_of_cast (h : t ∈ ScalarType.words b.length) (valid : t.Valid)
    (cast : (Scalar.bit b).cast t = .ok r) : r.type = t ∧ r.Fits ∧ r.bits = .ok b := by
  obtain ⟨r', p, given, type, fits, held, agree⟩ := cast_of_bits h valid
  obtain rfl := Except.ok.inj (given.symm.trans cast)
  refine ⟨type, fits, ?_⟩
  have high := ((ScalarType.valid_of_words h).mp valid).2
  have residue : p % twoPow b.length = (b.toNat : Int) % twoPow b.length := agree
  rw [bits_of_payload (type ▸ h) high held, residue, Bits.ofNat_residue, Bits.ofNat_toNat]

theorem cast_cast_bit (h : v.type ∈ ScalarType.words w) (fits : v.Fits) (bits : v.bits = .ok b) :
    (Scalar.bit b).cast v.type = .ok v := by
  obtain ⟨p, held⟩ := exists_payload h
  have valid := ((fits_iff_holds held).mp fits).1
  have high := ((ScalarType.valid_of_words h).mp valid).2
  obtain rfl := Except.ok.inj ((bits_of_payload h high held).symm.trans bits)
  have member := h
  rw [← Bits.length_ofNat (p % twoPow w).toNat w] at member
  obtain ⟨r, q, cast, type, fits', held', agree⟩ := cast_of_bits member valid
  rw [Bits.length_ofNat] at agree
  have congruent := (agree.trans (Bits.toNat_ofNat_residue p w)).symm
  rw [cast, eq_of_modEq h type fits fits' held held' congruent]

theorem bits_of_cast_integer (h : v.type ∈ ScalarType.integers w) (fits : v.Fits)
    (ht : t ∈ ScalarType.integers w) :
    ∃ r, v.cast t = .ok r ∧ r.type = t ∧ r.Fits ∧ r.bits = v.bits := by
  have words := ScalarType.words_of_integers h
  have words' := ScalarType.words_of_integers ht
  obtain ⟨p, held⟩ := exists_payload words
  have start : v.integer? = some p := (integer_eq_payload h).trans held
  have room := (ScalarType.valid_of_words words).mp ((fits_iff_holds held).mp fits).1
  have valid := (ScalarType.valid_of_words words').mpr room
  obtain ⟨r, m, cast, type, fits', held', agree⟩ := cast_integer fits start ht valid
  have residue : m % twoPow w = p % twoPow w := agree
  refine ⟨r, cast, type, fits', ?_⟩
  rw [bits_of_payload words room.2 held, bits_of_payload (type ▸ words') room.2 held', residue]

/-- For every width of a word: a word casts to its bits and back to itself, bits cast
to a word and back to themselves, and the integers of both signs cast to each other
as they do through their bits, so that these casts undo each other too. -/
theorem reinterprets (n : Nat) (low : 1 ≤ n) (high : n ≤ 64) :
    (∀ t ∈ ScalarType.words n,
      (∀ v : Scalar, v.type = t → v.Fits → ∃ b : Bits, v.cast (.bit n) = .ok (.bit b) ∧
        b.length = n ∧ v.Shows b ∧ (Scalar.bit b).cast t = .ok v) ∧
      (∀ b : Bits, b.length = n → ∃ v, (Scalar.bit b).cast t = .ok v ∧ v.type = t ∧ v.Fits ∧
        v.Shows b ∧ v.cast (.bit n) = .ok (.bit b))) ∧
    (∀ s ∈ ScalarType.integers n, ∀ t ∈ ScalarType.integers n, ∀ v : Scalar, v.type = s →
      v.Fits → v.cast t = (v.cast (.bit n) >>= (·.cast t)) ∧
        (v.cast t >>= (·.cast s)) = .ok v) := by
  refine ⟨fun t member => ⟨?_, ?_⟩, ?_⟩
  · rintro v rfl fits
    have valid := (ScalarType.valid_of_words member).mpr ⟨low, high⟩
    obtain ⟨b, bits, length⟩ := exists_bits member
    exact ⟨b, cast_bit member valid bits, length, shows_of_bits member high bits,
      cast_cast_bit member fits bits⟩
  · rintro b rfl
    have valid := (ScalarType.valid_of_words member).mpr ⟨low, high⟩
    obtain ⟨v, p, cast, -⟩ := cast_of_bits member valid
    obtain ⟨rfl, fits, bits⟩ := bits_of_cast member valid cast
    exact ⟨v, cast, rfl, fits, shows_of_bits member high bits, cast_bit member valid bits⟩
  · rintro s hs t ht v rfl fits
    have words := ScalarType.words_of_integers hs
    have words' := ScalarType.words_of_integers ht
    have valid := (ScalarType.valid_of_words words).mpr ⟨low, high⟩
    obtain ⟨b, bits, -⟩ := exists_bits words
    obtain ⟨r, cast, rfl, fits', same⟩ := bits_of_cast_integer hs fits ht
    obtain ⟨v', back, type, fitsBack, again⟩ := bits_of_cast_integer ht fits' hs
    have toR := cast_cast_bit words' fits' (same.trans bits)
    have toV := cast_cast_bit words fits bits
    have toV' := cast_cast_bit (type ▸ words) fitsBack (again.trans (same.trans bits))
    rw [type, toV] at toV'
    cases toV'
    rw [cast, cast_bit words valid bits]
    exact ⟨toR.symm, back⟩

theorem reinterprets_of_minus_one :
    (1 ≤ 64 ∧ 64 ≤ 64) ∧ (∃ b, cast (.int (-1) 64) (.bit 64) = .ok (.bit b) ∧
      cast (.bit b) (.int 64) = .ok (.int (-1) 64)) ∧
    (cast (.int (-1) 64) (.uint 64) >>= (·.cast (.int 64))) = .ok (.int (-1) 64) := by
  have inverse := reinterprets 64 (by decide) (by decide)
  have fits : Fits (.int (-1) 64) := by decide
  obtain ⟨b, toBits, -, -, back⟩ := (inverse.1 (.int 64) (by simp [ScalarType.words])).1 _ rfl fits
  have unsigned := inverse.2 (.int 64) (by simp [ScalarType.integers]) (.uint 64)
    (by simp [ScalarType.integers]) (.int (-1) 64) rfl fits
  exact ⟨by decide, ⟨b, toBits, back⟩, unsigned.2⟩

end QasmValues.Scalar
