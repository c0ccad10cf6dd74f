import QasmValues.Proofs.Index
import QasmValues.Proofs.Word

/-! Ranges as arithmetic progressions.
The positions of a range are the terms of its progression that lie in the container and
are not past its stop, in order. They are found by a walk in words of 64 bits, which ends
where no word holds the next term. No sum before it leaves the word. -/

namespace QasmValues

/-- The number is a position of the container that is not past the bound. -/
def Reached (step bound : Int) (length : Nat) (n : Int) : Prop :=
  0 ≤ n ∧ n < length ∧ (0 < step → n ≤ bound) ∧ (step < 0 → bound ≤ n)

/-- The number lies beyond the bound in the direction of the step. -/
def Past (step bound n : Int) : Prop :=
  (0 < step ∧ bound < n) ∨ (step < 0 ∧ n < bound)

/-- The positions are the terms `first`, `first + step`, … as long as they are reached. -/
structure AreTerms (first step bound : Int) (length : Nat) (positions : List Nat) : Prop where
  entries : ∀ (i : Nat) (inside : i < positions.length),
    (positions[i] : Int) = first + i * step
  reached : ∀ i : Nat, i < positions.length ↔ Reached step bound length (first + i * step)

/-- The walk of a range in words. It stops past the bound, or where no word holds the next
term. -/
inductive Walks (step bound : Int64) : Int64 → List Nat → Prop
  | past {first : Int64} (beyond : Past step.toInt bound.toInt first.toInt) :
      Walks step bound first []
  | last {first : Int64} (within : ¬Past step.toInt bound.toInt first.toInt)
      (full : ¬InWord (first.toInt + step.toInt)) :
      Walks step bound first [first.toInt.toNat]
  | next {first : Int64} {rest : List Nat} (within : ¬Past step.toInt bound.toInt first.toInt)
      (room : InWord (first.toInt + step.toInt)) (walk : Walks step bound (first + step) rest) :
      Walks step bound first (first.toInt.toNat :: rest)

theorem twoPow_word : twoPow 63 = maxLength + 1 := rfl

section terms

variable {first step bound : Int} {length : Nat} {positions : List Nat}

theorem areTerms_nil (beyond : Past step bound first) :
    AreTerms first step bound length [] := by
  refine ⟨by simp, fun i => ?_⟩
  simp only [List.length_nil, Nat.not_lt_zero, false_iff]
  rintro ⟨-, -, rising, falling⟩
  obtain ⟨up, far⟩ | ⟨down, far⟩ := beyond
  · have onward : 0 ≤ (i : Int) * step := Int.mul_nonneg (by omega) (by omega)
    have here := rising up
    omega
  · have onward : (i : Int) * step ≤ 0 := Int.mul_nonpos_of_nonneg_of_nonpos (by omega) (by omega)
    have here := falling down
    omega

theorem AreTerms.cons (here : Reached step bound length first)
    (rest : AreTerms (first + step) step bound length positions) :
    AreTerms first step bound length (first.toNat :: positions) := by
  have later (i : Nat) : first + (i + 1 : Nat) * step = first + step + i * step := by
    rw [Int.natCast_succ, Int.add_mul, Int.one_mul]
    omega
  constructor
  · intro i inside
    cases i with
    | zero =>
      have start := here.1
      simp only [List.getElem_cons_zero]
      omega
    | succ i =>
      rw [later, List.getElem_cons_succ]
      exact rest.entries i (Nat.lt_of_succ_lt_succ inside)
  · intro i
    cases i with
    | zero => simpa using here
    | succ i => rw [later, ← rest.reached i, List.length_cons, Nat.succ_lt_succ_iff]

theorem AreTerms.nodup (terms : AreTerms first step bound length positions) (moves : step ≠ 0) :
    positions.Nodup := by
  unfold List.Nodup
  rw [List.pairwise_iff_getElem]
  intro i j left right order same
  have equal : (i : Int) * step = j * step := by
    have entry := terms.entries i left
    rw [same, terms.entries j right] at entry
    omega
  have index := Int.eq_of_mul_eq_mul_right moves equal
  omega

end terms

section walk

variable {step bound first : Int64} {length count : Nat} {positions : List Nat}

/-- A walk within the container meets all the terms that are reached. A term that no word
holds is past the bound. -/
theorem Walks.areTerms (walk : Walks step bound first positions) (short : length ≤ maxLength)
    (moves : step.toInt ≠ 0)
    (rising : 0 < step.toInt → 0 ≤ first.toInt ∧ bound.toInt < length)
    (falling : step.toInt < 0 → 0 ≤ bound.toInt ∧ first.toInt < length) :
    AreTerms first.toInt step.toInt bound.toInt length positions := by
  induction walk with
  | past beyond => exact areTerms_nil beyond
  | last within full =>
    apply AreTerms.cons
    · simp only [Past, Reached] at *
      omega
    · apply areTerms_nil
      simp only [Past, InWord, twoPow_word] at *
      omega
  | next within room walk ih =>
    rw [toInt_add_of_inWord room] at ih
    apply AreTerms.cons
    · simp only [Past, Reached] at *
      omega
    · exact ih (by omega) (by omega)

theorem walks_progression (length : Nat) (moves : step.toInt ≠ 0)
    (rising : 0 < step.toInt → bound.toInt < length ∧ length ≤ first.toInt + count)
    (falling : step.toInt < 0 → 0 ≤ bound.toInt ∧ first.toInt < count) :
    Walks step bound first (progression step.toInt bound.toInt count first.toInt) := by
  induction count generalizing first with
  | zero =>
    apply Walks.past
    unfold Past
    omega
  | succ count ih =>
    unfold progression
    split
    · rename_i beyond
      exact .past beyond
    · rename_i within
      split
      · rename_i room
        have sum := toInt_add_of_inWord room
        rw [← sum]
        refine .next within room (ih ?_ ?_) <;> omega
      · rename_i full
        exact .last within full

end walk

namespace IndexSpec

def firstTerm (start : Option Int64) (step : Int) (length : Nat) : Int :=
  match start with
  | some index => fromStart index length
  | none => if 0 < step then 0 else length - 1

def lastTerm (stop : Option Int64) (step : Int) (length : Nat) : Int :=
  match stop with
  | some index => fromStart index length
  | none => if 0 < step then length - 1 else 0

variable {start step stop : Option Int64} {stride : Int} {length : Nat} {n : Int}

/-- Moving the stop into the container changes nothing for the positions in it. -/
theorem reached_rangeBound_iff :
    Reached stride (rangeBound stop stride length) length n ↔
      Reached stride (lastTerm stop stride length) length n := by
  unfold Reached rangeBound lastTerm
  cases stop <;> dsimp only <;> split <;> omega

theorem areTerms_rangeBound_iff {first : Int} {positions : List Nat} :
    AreTerms first stride (rangeBound stop stride length) length positions ↔
      AreTerms first stride (lastTerm stop stride length) length positions := by
  constructor
  · rintro ⟨entries, reached⟩
    exact ⟨entries, fun i => (reached i).trans reached_rangeBound_iff⟩
  · rintro ⟨entries, reached⟩
    exact ⟨entries, fun i => (reached i).trans reached_rangeBound_iff.symm⟩

theorem inWord_fromStart (short : length ≤ maxLength) (index : Int64) :
    InWord (fromStart index length) := by
  have low := index.le_toInt
  have high := index.toInt_lt
  have word : twoPow 63 = 9223372036854775808 := rfl
  unfold InWord fromStart
  unfold maxLength at short
  split <;> omega

theorem rangeBound_inside (stop : Option Int64) (stride : Int) (length : Nat) :
    (0 < stride → rangeBound stop stride length < length) ∧
      (stride < 0 → 0 ≤ rangeBound stop stride length) := by
  unfold rangeBound
  cases stop <;> dsimp only <;> split <;> omega

theorem inWord_rangeBound (short : length ≤ maxLength) :
    InWord (rangeBound stop stride length) := by
  unfold rangeBound
  cases stop with
  | none =>
    dsimp only
    unfold InWord
    rw [twoPow_word]
    split <;> omega
  | some index =>
    have room := inWord_fromStart short index
    unfold InWord at *
    rw [twoPow_word] at *
    dsimp only
    split <;> omega

theorem rangeStart_eq_firstTerm (stride : Int) (short : length ≤ maxLength)
    (inside : ∀ index ∈ start, -(length : Int) ≤ index.toInt ∧ index.toInt < length)
    (filled : ¬(length = 0 ∧ start = none)) :
    0 ≤ firstTerm start stride length ∧ firstTerm start stride length < length ∧
      rangeStart start stride length = .ok (firstTerm start stride length).toNat := by
  cases start with
  | none =>
    unfold firstTerm rangeStart
    dsimp only
    have nonempty : length ≠ 0 := fun empty => filled ⟨empty, rfl⟩
    split
    · refine ⟨by omega, by omega, rfl⟩
    · refine ⟨by omega, by omega, ?_⟩
      congr 1
      omega
  | some index =>
    have range := inside index rfl
    have bounds : 0 ≤ fromStart index length ∧ fromStart index length < length := by
      unfold fromStart
      split <;> omega
    refine ⟨bounds.1, bounds.2, ?_⟩
    apply resolveIndex_eq_ok_iff.mpr
    simp only [firstTerm]
    omega

/-- What a range with a start in the container denotes. The walk needs a first term, which an
empty container does not give to a range without a start. -/
structure Denotes (start : Option Int64) (step : Int64) (stop : Option Int64) (length : Nat)
    (positions : List Nat) : Prop where
  terms : AreTerms (firstTerm start step.toInt length) step.toInt
    (lastTerm stop step.toInt length) length positions
  once : positions.Nodup
  empty : length = 0 → start = none → positions = []
  walk : ¬(length = 0 ∧ start = none) → ∃ first bound : Int64,
    first.toInt = firstTerm start step.toInt length ∧
      bound.toInt = rangeBound stop step.toInt length ∧ Walks step bound first positions

theorem exists_denotes (short : length ≤ maxLength) (moves : (step.getD 1).toInt ≠ 0)
    (inside : ∀ index ∈ start, -(length : Int) ≤ index.toInt ∧ index.toInt < length) :
    ∃ positions, resolveRange start step stop length = .ok positions ∧
      Denotes start (step.getD 1) stop length positions := by
  unfold resolveRange
  dsimp only
  generalize step.getD 1 = step at *
  rw [if_neg moves]
  by_cases vacant : length = 0 ∧ start = none
  · rw [if_pos vacant]
    refine ⟨[], rfl, ⟨by simp, fun i => ?_⟩, List.nodup_nil, fun _ _ => rfl,
      fun filled => absurd vacant filled⟩
    simp only [List.length_nil, Nat.not_lt_zero, false_iff, Reached]
    omega
  · obtain ⟨low, high, found⟩ := rangeStart_eq_firstTerm step.toInt short inside vacant
    have room : InWord (firstTerm start step.toInt length) :=
      ⟨by omega, by rw [twoPow_word]; omega⟩
    obtain ⟨first, hf⟩ : ∃ first : Int64, first.toInt = firstTerm start step.toInt length :=
      ⟨_, toInt_ofInt_of_inWord room⟩
    obtain ⟨bound, hb⟩ : ∃ bound : Int64, bound.toInt = rangeBound stop step.toInt length :=
      ⟨_, toInt_ofInt_of_inWord (inWord_rangeBound short)⟩
    have last := rangeBound_inside stop step.toInt length
    have walk : Walks step bound first
        (progression step.toInt bound.toInt length first.toInt) := by
      apply walks_progression length <;> omega
    have terms := walk.areTerms short moves (by omega) (by omega)
    have first_eq : ((firstTerm start step.toInt length).toNat : Int) = first.toInt := by omega
    refine ⟨progression step.toInt bound.toInt length first.toInt, ?_, ?_, terms.nodup moves,
      fun empty omitted => absurd ⟨empty, omitted⟩ vacant, fun _ => ⟨first, bound, hf, hb, walk⟩⟩
    · rw [if_neg vacant, if_neg (Nat.not_lt_of_le short), found, ← hb, ← first_eq]
      rfl
    · rw [hf, hb] at terms
      rw [hf, hb]
      exact areTerms_rangeBound_iff.mp terms

theorem nodup_of_resolveRange {positions : List Nat}
    (h : resolveRange start step stop length = .ok positions) : positions.Nodup := by
  have found := h
  unfold resolveRange at h
  dsimp only at h
  split at h
  · cases h
  · rename_i moves
    split at h
    · cases h
      exact List.nodup_nil
    · split at h
      · cases h
      · rename_i _ short
        obtain ⟨first, started, -⟩ := bind_eq_ok_iff.mp h
        have inside : ∀ index ∈ start, -(length : Int) ≤ index.toInt ∧ index.toInt < length := by
          rintro index rfl
          have place := resolveIndex_eq_ok_iff.mp started
          unfold fromStart at place
          split at place <;> omega
        obtain ⟨_, same, denotes⟩ := exists_denotes (Nat.not_lt.mp short) moves inside
        cases found.symm.trans same
        exact denotes.once

theorem nodup_of_resolve {spec : IndexSpec} {positions : List Nat}
    (unlisted : ∀ indices, spec ≠ .set indices) (h : spec.resolve length = .ok positions) :
    positions.Nodup := by
  cases spec with
  | single index =>
    obtain ⟨position, -, h⟩ := bind_eq_ok_iff.mp h
    cases h
    exact List.pairwise_singleton _ position
  | set indices => exact absurd rfl (unlisted indices)
  | range start step stop => exact nodup_of_resolveRange h

/-- A step of zero is a fault whatever else is given, and then a start outside the container
is one. Every other range denotes the terms that are reached, in order and once each, and its
walk comes to an end. No number that is counted from the end of a container leaves the word. -/
theorem range_denotes_terms (start step stop : Option Int64) {length : Nat}
    (short : length ≤ maxLength) :
    ((step.getD 1).toInt = 0 →
        (range start step stop).resolve length = .error .zeroStep) ∧
      ((step.getD 1).toInt ≠ 0 → ∀ index ∈ start,
        ¬(-(length : Int) ≤ index.toInt ∧ index.toInt < length) →
        (range start step stop).resolve length =
          .error (.indexOutOfRange index.toInt length)) ∧
      ((step.getD 1).toInt ≠ 0 →
        (∀ index ∈ start, -(length : Int) ≤ index.toInt ∧ index.toInt < length) →
        ∃ positions, (range start step stop).resolve length = .ok positions ∧
          Denotes start (step.getD 1) stop length positions) ∧
      InWord (length - 1) ∧ ∀ index : Int64, InWord (fromStart index length) := by
  refine ⟨fun still => ?_, fun moves index given outside => ?_, exists_denotes short, ?_,
    inWord_fromStart short⟩
  · exact if_pos still
  · cases given
    have outOfRange : resolveIndex index length =
        .error (.indexOutOfRange index.toInt length) := by
      apply if_neg
      unfold fromStart
      split <;> omega
    change resolveRange (some index) step stop length = _
    unfold resolveRange
    dsimp only
    rw [if_neg moves, if_neg (by simp), if_neg (Nat.not_lt_of_le short), rangeStart, outOfRange]
    rfl
  · unfold InWord
    rw [twoPow_word]
    omega

theorem range_denotes_terms_of_falling :
    12 ≤ maxLength ∧ (range none (some (-5)) (some (-30))).resolve 12 = .ok [11, 6, 1] ∧
      Denotes none (-5) (some (-30)) 12 [11, 6, 1] := by
  have short : 12 ≤ maxLength := by decide
  have value : (range none (some (-5)) (some (-30))).resolve 12 = .ok [11, 6, 1] := rfl
  obtain ⟨positions, found, denotes⟩ :=
    (range_denotes_terms none (some (-5)) (some (-30)) short).2.2.1 (by decide) (by simp)
  cases value.symm.trans found
  exact ⟨short, value, denotes⟩

end IndexSpec

end QasmValues
