import QasmValues.Index
import QasmValues.Proofs.Outcome

/-! Positions of index expressions.
Every position that an index expression denotes lies in its container, whatever
the signs of its bounds and of its step. -/

namespace QasmValues

/-- A walk stays below the end of the container: a rising one by its bound, a
falling one by its first term. -/
theorem progression_lt {step bound first : Int} {count length : Nat}
    (rising : 0 < step → 0 ≤ first ∧ bound < length)
    (falling : step < 0 → 0 ≤ bound ∧ first < length) (moves : step ≠ 0) :
    ∀ position ∈ progression step bound count first, position < length := by
  induction count generalizing first with
  | zero => exact nofun
  | succ count ih =>
    unfold progression
    split
    · exact nofun
    · rename_i inside
      have here : first.toNat < length := by omega
      refine List.forall_mem_cons.mpr ⟨here, ?_⟩
      split
      · exact ih (by omega) (by omega)
      · exact nofun

theorem progression_one (first count : Nat) (short : first + count ≤ maxLength) :
    progression 1 (first + count - 1 : Int) count first = List.range' first count := by
  have word : twoPow 63 = maxLength + 1 := rfl
  induction count generalizing first with
  | zero => rfl
  | succ count ih =>
    have next : InWord ((first : Int) + 1) := by
      rw [InWord, word]
      omega
    have bound : ((first + 1 : Nat) + count - 1 : Int) = first + (count + 1 : Nat) - 1 := by omega
    have rest := ih (first + 1) (by omega)
    rw [bound] at rest
    rw [progression, if_neg (by omega), if_pos next, List.range'_succ, ← rest, Int.toNat_natCast]
    rfl

theorem resolveIndex_eq_error {index : Int64} {length : Nat} {e : Fault}
    (h : resolveIndex index length = .error e) : e = .indexOutOfRange index.toInt length := by
  unfold resolveIndex at h
  split at h
  · cases h
  · exact (Except.error.inj h).symm

theorem resolveIndex_of_inside {index : Int64} {length : Nat} (short : length ≤ maxLength)
    (low : 0 ≤ index.toInt) (high : index.toInt < length) :
    resolveIndex index length = .ok index.toInt.toNat := by
  apply resolveIndex_eq_ok_iff.mpr
  unfold fromStart
  rw [if_pos low]
  omega

theorem resolveIndex_of_outside {index : Int64} {length : Nat}
    (outside : index.toInt < -length ∨ length ≤ index.toInt) :
    resolveIndex index length = .error (.indexOutOfRange index.toInt length) := by
  apply if_neg
  unfold fromStart
  split <;> omega

theorem toInt_ofNat {n : Nat} (short : n ≤ maxLength) : (Int64.ofNat n).toInt = n :=
  Int64.toInt_ofNat_of_lt (Nat.lt_succ_of_le short)

theorem toInt_sub_ofNat {index : Int64} {n : Nat} (low : n ≤ index.toInt) :
    (index - .ofNat n).toInt = index.toInt - n := by
  have word : maxLength = 2 ^ 63 - 1 := rfl
  have high := index.toInt_lt
  rw [Int64.toInt_sub, toInt_ofNat (by omega), Int.bmod_eq_of_le (by omega) (by omega)]

theorem resolveIndex_ofNat {n length : Nat} (short : length ≤ maxLength) (inside : n < length) :
    resolveIndex (.ofNat n) length = .ok n := by
  have word : (Int64.ofNat n).toInt = n := toInt_ofNat (Nat.le_trans (Nat.le_of_lt inside) short)
  rw [resolveIndex_of_inside short (by omega) (by omega), word, Int.toNat_natCast]

namespace IndexSpec

theorem resolve_full {length : Nat} (short : length ≤ maxLength) :
    full.resolve length = .ok (List.range length) := by
  change resolveRange none none none length = _
  have stride : ((none : Option Int64).getD 1).toInt = 1 := rfl
  unfold resolveRange
  dsimp only
  rw [stride, if_neg Int.one_ne_zero]
  by_cases empty : length = 0
  · rw [if_pos ⟨empty, rfl⟩, empty]
    rfl
  · have walk := progression_one 0 length (by omega)
    rw [Int.natCast_zero, Int.zero_add] at walk
    rw [if_neg (fun both => empty both.1), if_neg (Nat.not_lt_of_le short), List.range_eq_range',
      ← walk]
    rfl

theorem resolveRange_lt {start step stop : Option Int64} {length : Nat} {positions : List Nat}
    (h : resolveRange start step stop length = .ok positions) :
    ∀ position ∈ positions, position < length := by
  unfold resolveRange at h
  dsimp only at h
  split at h
  · cases h
  · rename_i moves
    split at h
    · cases h
      exact nofun
    · rename_i filled
      split at h
      · cases h
      · obtain ⟨first, hf, h⟩ := bind_eq_ok_iff.mp h
        cases pure_eq_ok_iff.mp h
        have inside : first < length := by
          unfold rangeStart at hf
          split at hf
          · exact resolveIndex_lt hf
          · cases hf
            have : length ≠ 0 := fun empty => filled ⟨empty, rfl⟩
            split <;> omega
        refine progression_lt (fun rising => ⟨by omega, ?_⟩) (fun falling => ⟨?_, by omega⟩) moves
        · unfold rangeBound
          split <;> simp only [if_pos rising] <;> omega
        · have upward : ¬0 < (step.getD 1).toInt := by omega
          unfold rangeBound
          split <;> simp only [if_neg upward] <;> omega

theorem resolve_lt {spec : IndexSpec} {length : Nat} {positions : List Nat}
    (h : spec.resolve length = .ok positions) : ∀ position ∈ positions, position < length := by
  cases spec with
  | single index =>
    obtain ⟨position, hp, h⟩ := bind_eq_ok_iff.mp h
    cases pure_eq_ok_iff.mp h
    simpa using resolveIndex_lt hp
  | set indices =>
    intro position member
    obtain ⟨index, -, hp⟩ := exists_of_mem_mapM h position member
    exact resolveIndex_lt hp
  | range start step stop => exact resolveRange_lt h

theorem fault_of_resolve {spec : IndexSpec} {length : Nat} {e : Fault}
    (h : spec.resolve length = .error e) :
    e = .zeroStep ∨ ∃ index, e = .indexOutOfRange index length := by
  cases spec with
  | single index =>
    obtain failed | ⟨_, -, h⟩ := bind_eq_error_iff.mp h
    · exact .inr ⟨_, resolveIndex_eq_error failed⟩
    · cases h
  | set indices =>
    obtain ⟨index, -, failed⟩ := exists_of_mapM_eq_error h
    exact .inr ⟨_, resolveIndex_eq_error failed⟩
  | range start step stop =>
    change resolveRange start step stop length = .error e at h
    unfold resolveRange at h
    dsimp only at h
    split at h
    · exact .inl (Except.error.inj h).symm
    · split at h
      · cases h
      · split at h
        · exact .inr ⟨_, (Except.error.inj h).symm⟩
        · obtain failed | ⟨_, -, h⟩ := bind_eq_error_iff.mp h
          · unfold rangeStart at failed
            split at failed
            · exact .inr ⟨_, resolveIndex_eq_error failed⟩
            · cases failed
          · cases h

theorem resolveNonEmpty_eq_ok_iff {spec : IndexSpec} {length : Nat} {positions : List Nat} :
    spec.resolveNonEmpty length = .ok positions ↔
      spec.resolve length = .ok positions ∧ positions ≠ [] := by
  rw [resolveNonEmpty, bind_eq_ok_iff]
  constructor
  · rintro ⟨found, hr, h⟩
    split at h
    · cases h
    · rename_i filled
      cases pure_eq_ok_iff.mp h
      exact ⟨hr, by simpa using filled⟩
  · rintro ⟨hr, filled⟩
    refine ⟨positions, hr, ?_⟩
    rw [if_neg (by simpa using filled)]
    rfl

end IndexSpec

end QasmValues
