import QasmValues.Proofs.Scalar.Legality
import QasmValues.Proofs.Scalar.Payload

/-! Casts to integers are reductions modulo a power of two.
A cast of an integer to an integer type gives the one number in the range of the
target that is congruent to it. A float first becomes a word and is then reduced in
the same way. So a chain of such casts depends on its last type alone, as long as no
type on the way is narrower than the last one. -/

namespace QasmValues.Scalar

variable {v r : Scalar} {t last : ScalarType} {n m : Int} {u w : Nat}

/-- The number that a cast to an integer type reduces. -/
def integer? : Scalar → Option Int
  | .int n _ => some n.toInt
  | .uint n _ => some n.toNat
  | .float x _ => some (wordOfFloat x)
  | _ => none

theorem exists_integer (h : v.type.isNumeric = true) : ∃ n, v.integer? = some n := by
  cases v <;> simp_all [type, ScalarType.isNumeric, integer?]

theorem integer_eq_payload (h : v.type ∈ ScalarType.integers w) : v.integer? = v.payload? := by
  cases v <;> simp_all [type, ScalarType.integers, integer?, payload?]

theorem checkCast_integer (start : v.integer? = some n) (h : t ∈ ScalarType.integers w) :
    v.type.checkCast t = .ok () := by
  unfold ScalarType.checkCast
  split
  · rfl
  · cases v <;> cases start <;> rcases ScalarType.mem_integers.mp h with rfl | rfl <;> rfl

theorem convert_integer (start : v.integer? = some n) (w : Nat) :
    v.convert (.int w) = .ok (.int (wrapInt w n) w) ∧
      v.convert (.uint w) = .ok (.uint (wrapUInt w n) w) := by
  cases v <;> cases start <;> exact ⟨rfl, rfl⟩

theorem exists_convert_integer (start : v.integer? = some n) (h : t ∈ ScalarType.integers w)
    (valid : t.Valid) :
    ∃ r m, v.convert t = .ok r ∧ r.type = t ∧ r.Fits ∧ r.payload? = some m ∧
      m ≡ n [ZMOD twoPow w] := by
  obtain ⟨toInt, toUInt⟩ := convert_integer start w
  rcases ScalarType.mem_integers.mp h with rfl | rfl
  · have range := wrapInt_range n valid.1 valid.2
    exact ⟨_, _, toInt, rfl, ⟨valid, range⟩, rfl, wrapInt_modEq n valid.1 valid.2⟩
  · have range := wrapUInt_lt n valid.2
    exact ⟨_, _, toUInt, rfl, ⟨valid, range⟩, rfl, wrapUInt_modEq n valid.2⟩

/-- One cast: the result fits the target and is congruent to what it started from. -/
theorem cast_integer (fits : v.Fits) (start : v.integer? = some n)
    (h : t ∈ ScalarType.integers w) (valid : t.Valid) :
    ∃ r m, v.cast t = .ok r ∧ r.type = t ∧ r.Fits ∧ r.payload? = some m ∧
      m ≡ n [ZMOD twoPow w] := by
  have legal := checkCast_integer start h
  rw [cast_of_legal ((ScalarType.validate_eq_ok_iff t).mpr valid) legal]
  split
  · rename_i same
    have held : v.payload? = some n := by
      rw [← integer_eq_payload (same ▸ h), start]
    exact ⟨v, n, rfl, same, fits, held, rfl⟩
  · exact exists_convert_integer start h valid

theorem cast_cast (fits : v.Fits) (start : v.integer? = some n)
    (h : t ∈ ScalarType.integers u) (valid : t.Valid) (hlast : last ∈ ScalarType.integers w)
    (wide : w ≤ u) :
    ∃ r m, v.cast t = .ok r ∧ r.Fits ∧ r.integer? = some m ∧ r.cast last = v.cast last := by
  obtain ⟨r, m, cast, type, fits', held, agree⟩ := cast_integer fits start h valid
  have restart : r.integer? = some m := by
    rw [integer_eq_payload (type ▸ h), held]
  refine ⟨r, m, cast, fits', restart, ?_⟩
  have divides : (twoPow w : Int) ∣ twoPow u := twoPow_dvd_twoPow wide
  by_cases room : last.Valid
  · obtain ⟨x, p, hx, typeX, fitsX, heldX, agreeX⟩ := cast_integer fits' restart hlast room
    obtain ⟨y, q, hy, typeY, fitsY, heldY, agreeY⟩ := cast_integer fits start hlast room
    have member : x.type ∈ ScalarType.words w :=
      typeX.symm ▸ ScalarType.words_of_integers hlast
    have congruent : p ≡ q [ZMOD twoPow w] :=
      (agreeX.trans (agree.of_dvd divides)).trans agreeY.symm
    rw [hx, hy, eq_of_modEq member (typeY.trans typeX.symm) fitsX fitsY heldX heldY congruent]
  · cases invalid : last.validate with
    | ok => exact absurd ((ScalarType.validate_eq_ok_iff last).mp invalid) room
    | error fault => rw [cast_of_invalid invalid, cast_of_invalid invalid]

/-- A chain of casts that never gets narrower than its end is one cast to its end. -/
theorem cast_through (hlast : last ∈ ScalarType.integers w) (via : List ScalarType)
    (wide : ∀ t ∈ via, t.Valid ∧ ∃ u, w ≤ u ∧ t ∈ ScalarType.integers u) (fits : v.Fits)
    (start : v.integer? = some n) : (via ++ [last]).foldlM cast v = v.cast last := by
  induction via generalizing v n with
  | nil => simp
  | cons t via ih =>
    obtain ⟨⟨valid, u, room, member⟩, rest⟩ := List.forall_mem_cons.mp wide
    obtain ⟨r, m, cast, fits', restart, same⟩ := cast_cast fits start member valid hlast room
    rw [List.cons_append, List.foldlM_cons, cast, ← same]
    exact ih rest fits' restart

/-- An integer casts to the one number of the target's range that is congruent to it,
which is itself wherever it fits. And an integer or a float, be it NaN, infinite or
out of every range, casts to every integer type, and may pass through any integer
types on its way that are no narrower than the last. -/
theorem cast_reduces (v : Scalar) (fits : v.Fits) :
    (∀ u, v.type ∈ ScalarType.integers u → ∃ n, v.payload? = some n ∧
      ∀ w, ∀ t ∈ ScalarType.integers w, t.Valid →
        ∃ r m, v.cast t = .ok r ∧ r.type = t ∧ r.payload? = some m ∧
          (t.Holds m ∧ m ≡ n [ZMOD twoPow w]) ∧
          (∀ k, t.Holds k → k ≡ n [ZMOD twoPow w] → k = m) ∧ (t.Holds n → m = n)) ∧
    (v.type.isNumeric = true → ∀ w, ∀ last ∈ ScalarType.integers w, ∀ via : List ScalarType,
      (∀ t ∈ via, t.Valid ∧ ∃ u, w ≤ u ∧ t ∈ ScalarType.integers u) →
        (via ++ [last]).foldlM cast v = v.cast last ∧
          (last.Valid → ∃ r, v.cast last = .ok r ∧ r.type = last ∧ r.Fits)) := by
  constructor
  · intro u integer
    obtain ⟨n, held⟩ := exists_payload (ScalarType.words_of_integers integer)
    refine ⟨n, held, fun w t member valid => ?_⟩
    have start : v.integer? = some n := by
      rw [integer_eq_payload integer, held]
    obtain ⟨r, m, cast, type, fits', result, agree⟩ := cast_integer fits start member valid
    have range : t.Holds m := type ▸ ((fits_iff_holds result).mp fits').2
    have words := ScalarType.words_of_integers member
    have low := ((ScalarType.valid_of_words words).mp valid).1
    have unique : ∀ k, t.Holds k → k ≡ n [ZMOD twoPow w] → k = m := fun k hk congruent =>
      hk.eq_of_modEq words low range (congruent.trans agree.symm)
    exact ⟨r, m, cast, type, result, ⟨range, agree⟩, unique, fun hn => (unique n hn rfl).symm⟩
  · intro numeric w last hlast via wide
    obtain ⟨n, start⟩ := exists_integer numeric
    refine ⟨cast_through hlast via wide fits start, fun valid => ?_⟩
    obtain ⟨r, m, cast, type, fits', -⟩ := cast_integer fits start hlast valid
    exact ⟨r, cast, type, fits'⟩

theorem cast_reduces_of_chain :
    Fits (.int (-3) 8) ∧
      [ScalarType.uint 16, .int 4, .uint 4].foldlM cast (.int (-3) 8) =
        cast (.int (-3) 8) (.uint 4) ∧
      cast (.int (-3) 8) (.uint 4) = .ok (.uint 13 4) := by
  have fits : Fits (.int (-3) 8) := by decide
  have wide : ∀ t ∈ [ScalarType.uint 16, .int 4],
      t.Valid ∧ ∃ u, 4 ≤ u ∧ t ∈ ScalarType.integers u := by
    simp [ScalarType.integers, ScalarType.Valid, wordWidth]
  have through := (cast_reduces _ fits).2 rfl 4 (.uint 4) (by simp [ScalarType.integers]) _ wide
  exact ⟨fits, through.1, rfl⟩

end QasmValues.Scalar
