import QasmValues.Bits
import QasmValues.Proofs.Outcome

/-! Bit strings as text.
Reading a text takes out the separators, counts the digits that are left and reads them
from the right end, so that the first character it stops at is the rightmost bad one.
Writing starts at the most significant bit and writes no separator: it gives back the
digits that were read, and what it writes is read as the same bits. -/

namespace QasmValues.Bits

variable {b : Bits} {bit : Bool} {c : Char} {e : Fault} {text : String} {n : Nat}

def digits (text : String) : List Char := text.toList.filter (· ≠ '_')

def IsDigit (c : Char) : Prop := c = '0' ∨ c = '1'

/-- The rightmost of some characters that is no binary digit. -/
def LastBad (c : Char) (cs : List Char) : Prop :=
  ∃ before after, cs = before ++ c :: after ∧ ¬IsDigit c ∧ ∀ d ∈ after, IsDigit d

theorem isDigit_digit (bit : Bool) : IsDigit (digit bit) := by
  cases bit
  · exact .inl rfl
  · exact .inr rfl

theorem digit_of_isDigit (h : IsDigit c) : digit (c == '1') = c := by
  obtain rfl | rfl := h <;> rfl

theorem ofDigit_digit (bit : Bool) : ofDigit (digit bit) = .ok bit := by
  cases bit <;> rfl

theorem ofDigit_of_isDigit (good : IsDigit c) : ofDigit c = .ok (c == '1') := by
  obtain rfl | rfl := good <;> rfl

theorem ofDigit_of_not_isDigit (bad : ¬IsDigit c) : ofDigit c = .error (.badBit c) := by
  obtain ⟨zero, one⟩ := not_or.mp bad
  simp [ofDigit, zero, one]

theorem ofDigit_eq_ok_iff : ofDigit c = .ok bit ↔ IsDigit c ∧ (c == '1') = bit := by
  by_cases good : IsDigit c
  · simp [ofDigit_of_isDigit good, good]
  · simp [ofDigit_of_not_isDigit good, good]

theorem ofDigit_eq_error_iff : ofDigit c = .error e ↔ ¬IsDigit c ∧ e = .badBit c := by
  by_cases good : IsDigit c
  · simp [ofDigit_of_isDigit good, good]
  · simp [ofDigit_of_not_isDigit good, good, eq_comm]

theorem map_digit_of_isDigit {cs : List Char} (good : ∀ c ∈ cs, IsDigit c) :
    (cs.map (· == '1')).map digit = cs := by
  rw [List.map_map]
  exact (List.map_congr_left fun c member => digit_of_isDigit (good c member)).trans cs.map_id

/-! ### Writing -/

theorem toList_text (b : Bits) : b.text.toList = b.toList.reverse.map digit :=
  String.toList_ofList

theorem length_toList_text (b : Bits) : b.text.toList.length = b.length := by
  rw [toList_text, List.length_map, List.length_reverse, length]

theorem isDigit_of_mem_text (member : c ∈ b.text.toList) : IsDigit c := by
  rw [toList_text] at member
  obtain ⟨bit, -, rfl⟩ := List.mem_map.mp member
  exact isDigit_digit bit

theorem digits_text (b : Bits) : digits b.text = b.text.toList := by
  refine List.filter_eq_self.mpr fun c member => ?_
  obtain rfl | rfl := isDigit_of_mem_text member <;> rfl

theorem text_append (low high : Bits) : (low ++ high).text = high.text ++ low.text := by
  have bits : (low ++ high).toList = low.toList ++ high.toList := rfl
  rw [← String.toList_inj, String.toList_append, toList_text, toList_text, toList_text, bits,
    List.reverse_append, List.map_append]

/-! ### Reading -/

theorem mapM_ofDigit_eq_ok_iff {cs : List Char} {bits : List Bool} :
    cs.mapM ofDigit = .ok bits ↔ bits.map digit = cs := by
  constructor
  · intro read
    obtain ⟨good, rfl⟩ := (mapM_eq_ok_iff fun _ _ => ofDigit_eq_ok_iff).mp read
    exact map_digit_of_isDigit good
  · rintro rfl
    exact mapM_map_of_inverse fun bit _ => ofDigit_digit bit

theorem parse_eq (text : String) (n : Nat) :
    parse text n =
      if (digits text).length = n then return ⟨← (digits text).reverse.mapM ofDigit⟩
      else .error (.lengthMismatch n (digits text).length) :=
  rfl

/-- A text is read as the bits that are written as its digits. -/
theorem parse_eq_ok_iff :
    parse text n = .ok b ↔ (digits text).length = n ∧ b.text.toList = digits text := by
  obtain ⟨bits⟩ := b
  rw [parse_eq, toList_text]
  split
  · rename_i count
    simp only [bind_eq_ok_iff, pure_eq_ok_iff, mapM_ofDigit_eq_ok_iff, mk.injEq, exists_eq_right,
      count, true_and, List.map_reverse, List.reverse_eq_iff]
  · rename_i other
    simp [other]

theorem exists_written_iff {cs : List Char} :
    (∃ b : Bits, b.text.toList = cs) ↔ ∀ c ∈ cs, IsDigit c := by
  constructor
  · rintro ⟨b, rfl⟩ c
    exact isDigit_of_mem_text
  · intro good
    refine ⟨⟨(cs.map (· == '1')).reverse⟩, ?_⟩
    rw [toList_text, List.reverse_reverse, map_digit_of_isDigit good]

theorem mapM_ofDigit_eq_error_iff {cs : List Char} :
    cs.reverse.mapM ofDigit = .error e ↔ ∃ c, LastBad c cs ∧ e = .badBit c := by
  have passed {c : Char} : (∃ bit, ofDigit c = .ok bit) ↔ IsDigit c := by
    simp [ofDigit_eq_ok_iff]
  simp only [mapM_eq_error_iff, passed, ofDigit_eq_error_iff]
  constructor
  · rintro ⟨after, c, before, parts, good, bad, rfl⟩
    refine ⟨c, ⟨before.reverse, after.reverse, ?_, bad, ?_⟩, rfl⟩
    · rw [List.reverse_eq_iff.mp parts]
      simp
    · simpa using good
  · rintro ⟨c, ⟨before, after, rfl, bad, good⟩, rfl⟩
    exact ⟨after.reverse, c, before.reverse, by simp, by simpa using good, bad, rfl⟩

theorem parse_eq_error_iff :
    parse text n = .error e ↔
      ((digits text).length ≠ n ∧ e = .lengthMismatch n (digits text).length) ∨
        (digits text).length = n ∧ ∃ c, LastBad c (digits text) ∧ e = .badBit c := by
  rw [parse_eq]
  split
  · rename_i count
    rw [bind_eq_error_iff, mapM_ofDigit_eq_error_iff]
    simp [count, pure, Except.pure]
  · rename_i other
    simp [other, eq_comm]

/-- A text is read just when its digits are as many as the length says and all binary, and
as the one bit string that is written as these digits. A wrong count is the fault of a text
whatever its characters are, and only a right count with bad characters names the rightmost
of them. Every bit string is read from its own text, and of two that are joined the upper
one is written first. -/
theorem parse_exact :
    (∀ text n,
      ((∃ b, parse text n = .ok b) ↔
        (digits text).length = n ∧ ∀ c ∈ digits text, IsDigit c) ∧
      (∀ b, parse text n = .ok b ↔
        (digits text).length = n ∧ b.text = String.ofList (digits text)) ∧
      ∀ e, parse text n = .error e ↔
        ((digits text).length ≠ n ∧ e = .lengthMismatch n (digits text).length) ∨
          (digits text).length = n ∧ ∃ c, LastBad c (digits text) ∧ e = .badBit c) ∧
    (∀ b : Bits, parse b.text b.length = .ok b) ∧
    ∀ low high : Bits, (low ++ high).text = high.text ++ low.text := by
  refine ⟨fun text n => ⟨?_, fun b => ?_, fun e => parse_eq_error_iff⟩, fun b => ?_, text_append⟩
  · simp only [parse_eq_ok_iff, exists_and_left]
    exact and_congr_right fun _ => exists_written_iff
  · rw [parse_eq_ok_iff, ← String.toList_inj, String.toList_ofList]
  · exact parse_eq_ok_iff.mpr ⟨by rw [digits_text, length_toList_text], (digits_text b).symm⟩

example : parse "a_ä10" 4 = .error (.badBit 'ä') ∧ parse "0_b" 3 = .error (.lengthMismatch 3 2) ∧
    parse "_1__0_" 2 = .ok ⟨[false, true]⟩ := ⟨rfl, rfl, rfl⟩

end QasmValues.Bits
