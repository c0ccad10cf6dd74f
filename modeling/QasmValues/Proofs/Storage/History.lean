import Mathlib.Data.List.GetD
import Mathlib.Data.List.Nodup
import QasmValues.Proofs.Storage

/-! Storage by its history.
Every allocation takes the next numbers, so that no handle is given out twice and none
changes its meaning. A bit holds what was last written to its handle. A handle is a word of
32 bits and a size one of 64, and an allocation is refused just when the count of what is
allocated would leave its word. -/

namespace QasmValues

namespace Storage

/-- Something that happened to the storage; a read or a failure is no event. -/
inductive Event where
  | tookQubits (ids : List QubitId)
  | tookBits (ids : List BitId)
  | wrote (id : BitId) (bit : Bool)

def Event.qubits? : Event → Option (List QubitId)
  | .tookQubits ids => some ids
  | .tookBits _ | .wrote .. => none

def Event.bits? : Event → Option (List BitId)
  | .tookBits ids => some ids
  | .tookQubits _ | .wrote .. => none

def Event.write? (id : BitId) : Event → Option Bool
  | .wrote other bit => if other = id then some bit else none
  | .tookQubits _ | .tookBits _ => none

abbrev History := List Event

namespace History

def qubits (past : History) : List (List QubitId) := past.filterMap Event.qubits?

def bits (past : History) : List (List BitId) := past.filterMap Event.bits?

def writes (past : History) (id : BitId) : List Bool := past.filterMap (Event.write? id)

theorem filterMap_concat {α β : Type} (f : α → Option β) (xs : List α) (x : α) :
    (xs ++ [x]).filterMap f = xs.filterMap f ++ (f x).toList := by
  rw [List.filterMap_append]
  cases fx : f x <;> simp [fx]

variable (past : History) (event : Event)

@[simp] theorem qubits_concat : qubits (past ++ [event]) = past.qubits ++ event.qubits?.toList :=
  filterMap_concat _ past event

@[simp] theorem bits_concat : bits (past ++ [event]) = past.bits ++ event.bits?.toList :=
  filterMap_concat _ past event

@[simp] theorem writes_concat (id : BitId) :
    writes (past ++ [event]) id = past.writes id ++ (event.write? id).toList :=
  filterMap_concat _ past event

end History

variable {s t : Storage} {past : History} {id : BitId} {size : Nat}

theorem flatten_append_range' {ι : Type} {mk : Nat → ι} {blocks : List (List ι)} {count : Nat}
    (h : blocks.flatten = (List.range count).map mk) (size : Nat) :
    (blocks ++ [(List.range' count size).map mk]).flatten =
      (List.range (count + size)).map mk := by
  rw [List.flatten_append, h, List.flatten_singleton, map_range_append_range']

theorem pairwise_disjoint_of_flatten {ι : Type} {mk : Nat → ι} {blocks : List (List ι)}
    {count : Nat} (injective : Function.Injective mk)
    (h : blocks.flatten = (List.range count).map mk) : blocks.Pairwise List.Disjoint := by
  have distinct : blocks.flatten.Nodup := h ▸ List.nodup_range.map injective
  exact (List.nodup_flatten.mp distinct).2

/-- The storage is what its history makes of it. A place beyond the bits reads as a bit that
was never written. -/
structure Tracks (s : Storage) (past : History) : Prop where
  qubits : past.qubits.flatten = (List.range s.qubits).map QubitId.mk
  bits : past.bits.flatten = (List.range s.bits.length).map BitId.mk
  qubitRoom : s.qubits ≤ maxCount
  bitRoom : s.bits.length ≤ maxCount
  content : ∀ id, s.bits.getD id.index false = (past.writes id).getLastD false

theorem tracks_empty : empty.Tracks [] :=
  ⟨rfl, rfl, Nat.zero_le _, Nat.zero_le _, fun _ => rfl⟩

theorem Tracks.allocQubits {ids : List QubitId} (h : s.Tracks past)
    (done : s.allocQubits size = .ok (ids, t)) : t.Tracks (past ++ [.tookQubits ids]) := by
  obtain ⟨room, rfl, rfl⟩ := allocQubits_eq_ok_iff.mp done
  refine ⟨?_, ?_, room, h.bitRoom, fun id => ?_⟩
  · rw [History.qubits_concat]
    exact flatten_append_range' h.qubits size
  · simpa [Event.bits?] using h.bits
  · simpa [Event.write?] using h.content id

theorem Tracks.allocBits {ids : List BitId} (h : s.Tracks past)
    (done : s.allocBits size = .ok (ids, t)) : t.Tracks (past ++ [.tookBits ids]) := by
  obtain ⟨room, rfl, rfl⟩ := allocBits_eq_ok_iff.mp done
  have length : (s.bits ++ List.replicate size false).length = s.bits.length + size := by
    rw [List.length_append, List.length_replicate]
  refine ⟨?_, ?_, h.qubitRoom, length ▸ room, fun id => ?_⟩
  · simpa [Event.qubits?] using h.qubits
  · rw [History.bits_concat, length]
    exact flatten_append_range' h.bits size
  · have old : (s.bits ++ List.replicate size false).getD id.index false =
        s.bits.getD id.index false := by
      obtain inside | beyond := Nat.lt_or_ge id.index s.bits.length
      · rw [List.getD_append _ _ _ _ inside]
      · rw [List.getD_append_right _ _ _ _ beyond, List.getD_eq_default _ _ beyond,
          List.getD_eq_getElem?_getD, List.getElem?_getD_replicate_default_eq]
    rw [old, h.content, History.writes_concat, Event.write?, Option.toList_none, List.append_nil]

theorem Tracks.writeBit {bit : Bool} (h : s.Tracks past) (done : s.writeBit id bit = .ok t) :
    t.Tracks (past ++ [.wrote id bit]) := by
  obtain ⟨inside, rfl⟩ := writeBit_eq_ok_iff.mp done
  have length : (s.bits.set id.index bit).length = s.bits.length := List.length_set
  refine ⟨?_, ?_, h.qubitRoom, length ▸ h.bitRoom, fun other => ?_⟩
  · simpa [Event.qubits?] using h.qubits
  · simpa [Event.bits?] using h.bits
  · rw [History.writes_concat, Event.write?]
    by_cases same : id = other
    · subst same
      simp [inside]
    · have apart : id.index ≠ other.index := BitId.index_injective.ne same
      rw [if_neg same, Option.toList_none, List.append_nil, ← h.content]
      simp [apart]

/-! ### Counts in words -/

/-- The count after an allocation, in words: the size must fit 32 bits, and so must the sum,
which is less than the count where it does not. -/
def grow (count : UInt32) (size : UInt64) : Option UInt32 :=
  if size.toNat ≤ maxCount ∧ count ≤ count + size.toUInt32 then some (count + size.toUInt32)
  else none

theorem grow_eq_some_iff {count total : UInt32} {size : UInt64} :
    grow count size = some total ↔
      count.toNat + size.toNat ≤ maxCount ∧ total.toNat = count.toNat + size.toNat := by
  have word : maxCount = 4294967295 := rfl
  have narrow : size.toUInt32.toNat = size.toNat % 4294967296 := UInt64.toNat_toUInt32 size
  have sum : (count + size.toUInt32).toNat = (count.toNat + size.toUInt32.toNat) % 4294967296 :=
    UInt32.toNat_add count size.toUInt32
  have bound : count.toNat < 4294967296 := count.toNat_lt
  unfold grow
  simp only [UInt32.le_iff_toNat_le]
  split
  · rw [Option.some.injEq, ← UInt32.toNat_inj]
    omega
  · simp only [reduceCtorEq, false_iff]
    omega

/-! ### Runs -/

inductive Operation where
  | allocQubits (size : Nat)
  | allocBits (size : Nat)
  | writeBit (id : BitId) (bit : Bool)
  | readBit (id : BitId)

structure Recorded where
  storage : Storage
  past : History

def Recorded.start : Recorded := ⟨.empty, []⟩

def Operation.perform (op : Operation) (r : Recorded) : Recorded :=
  match op with
  | allocQubits size =>
    match r.storage.allocQubits size with
    | .ok (ids, storage) => ⟨storage, r.past ++ [.tookQubits ids]⟩
    | .error _ => r
  | allocBits size =>
    match r.storage.allocBits size with
    | .ok (ids, storage) => ⟨storage, r.past ++ [.tookBits ids]⟩
    | .error _ => r
  | writeBit id bit =>
    match r.storage.writeBit id bit with
    | .ok storage => ⟨storage, r.past ++ [.wrote id bit]⟩
    | .error _ => r
  | readBit _ => r

def run (r : Recorded) (ops : List Operation) : Recorded := ops.foldl (fun r op => op.perform r) r

theorem Operation.tracks_perform (op : Operation) {r : Recorded} (h : r.storage.Tracks r.past) :
    (op.perform r).storage.Tracks (op.perform r).past := by
  cases op with
  | allocQubits size =>
    rw [perform]
    split
    · rename_i done
      exact h.allocQubits done
    · exact h
  | allocBits size =>
    rw [perform]
    split
    · rename_i done
      exact h.allocBits done
    · exact h
  | writeBit id bit =>
    rw [perform]
    split
    · rename_i done
      exact h.writeBit done
    · exact h
  | readBit id => exact h

theorem tracks_run {r : Recorded} (h : r.storage.Tracks r.past) (ops : List Operation) :
    (run r ops).storage.Tracks (run r ops).past := by
  induction ops generalizing r with
  | nil => exact h
  | cons op ops ih => exact ih (op.tracks_perform h)

theorem Tracks.mem_bits_iff (h : s.Tracks past) :
    id ∈ past.bits.flatten ↔ id.index < s.bits.length := by
  rw [h.bits, List.mem_map]
  constructor
  · rintro ⟨i, inside, rfl⟩
    exact List.mem_range.mp inside
  · intro inside
    exact ⟨id.index, List.mem_range.mpr inside, rfl⟩

/-- An allocation is refused just when the count would leave its word, and then changes
nothing. Otherwise the count grows as words do, and older bits keep their content. -/
structure Allocates {ι : Type} (r : Recorded) (family : Family) (count : Storage → Nat)
    (alloc : Storage → Nat → Except Fault (List ι × Storage)) (op : Nat → Operation) : Prop where
  room : count r.storage ≤ maxCount
  refused : ∀ size e, alloc r.storage size = .error e ↔
    maxCount < count r.storage + size ∧ e = .invalidWidth family (min size maxCount)
  unchanged : ∀ size e, alloc r.storage size = .error e → (op size).perform r = r
  words : ∀ (size : UInt64) total, grow (.ofNat (count r.storage)) size = some total ↔
    ∃ ids t, alloc r.storage size.toNat = .ok (ids, t) ∧ count t = total.toNat
  kept : ∀ size ids t, alloc r.storage size = .ok (ids, t) →
    ∀ id bit, r.storage.readBit id = .ok bit → t.readBit id = .ok bit

theorem grow_ofNat_eq_some_iff {count : Nat} {size : UInt64} {total : UInt32}
    (room : count ≤ maxCount) : grow (.ofNat count) size = some total ↔
      count + size.toNat ≤ maxCount ∧ count + size.toNat = total.toNat := by
  have word : (UInt32.ofNat count).toNat = count :=
    UInt32.toNat_ofNat_of_lt' (Nat.lt_succ_of_le room)
  rw [grow_eq_some_iff, word, eq_comm (a := total.toNat)]

theorem Tracks.allocates_qubits {r : Recorded} (h : r.storage.Tracks r.past) :
    Allocates r .qubit Storage.qubits Storage.allocQubits .allocQubits where
  room := h.qubitRoom
  refused size e := allocQubits_eq_error_iff
  unchanged size e failed := by rw [Operation.perform, failed]
  words size total := by
    rw [grow_ofNat_eq_some_iff h.qubitRoom]
    simp only [allocQubits_eq_ok_iff]
    constructor
    · rintro ⟨room, sum⟩
      exact ⟨_, _, ⟨room, rfl, rfl⟩, sum⟩
    · rintro ⟨_, _, ⟨room, rfl, rfl⟩, sum⟩
      exact ⟨room, sum⟩
  kept size ids t done id bit read := by
    obtain ⟨-, -, rfl⟩ := allocQubits_eq_ok_iff.mp done
    exact read

theorem Tracks.allocates_bits {r : Recorded} (h : r.storage.Tracks r.past) :
    Allocates r .bit (·.bits.length) Storage.allocBits .allocBits where
  room := h.bitRoom
  refused size e := allocBits_eq_error_iff
  unchanged size e failed := by rw [Operation.perform, failed]
  words size total := by
    rw [grow_ofNat_eq_some_iff h.bitRoom]
    simp only [allocBits_eq_ok_iff]
    constructor
    · rintro ⟨room, sum⟩
      exact ⟨_, _, ⟨room, rfl, rfl⟩, by simpa using sum⟩
    · rintro ⟨_, _, ⟨room, rfl, rfl⟩, sum⟩
      exact ⟨room, by simpa using sum⟩
  kept size ids t done id bit read := by
    obtain ⟨-, -, rfl⟩ := allocBits_eq_ok_iff.mp done
    obtain ⟨inside, held⟩ := readBit_eq_ok_iff.mp read
    refine readBit_eq_ok_iff.mpr ⟨?_, ?_⟩
    · rw [List.length_append]
      exact Nat.lt_add_right _ inside
    · rw [List.getD_append _ _ _ _ inside, held]

/-- Whatever was allocated, written and read, the allocations that succeeded returned disjoint
lists, which number the qubits and the bits in order. An allocation fails only for lack of
room and changes nothing then. A bit can be read and written just when it is allocated, and
it holds what was last written to it, or zero. -/
theorem holds_by_history (ops : List Operation) :
    let r := run .start ops
    (r.past.qubits.flatten = (List.range r.storage.qubits).map QubitId.mk ∧
      r.past.qubits.Pairwise List.Disjoint) ∧
    (r.past.bits.flatten = (List.range r.storage.bits.length).map BitId.mk ∧
      r.past.bits.Pairwise List.Disjoint) ∧
    Allocates r .qubit Storage.qubits Storage.allocQubits .allocQubits ∧
    Allocates r .bit (·.bits.length) Storage.allocBits .allocBits ∧
    (∀ id, (∃ bit, r.storage.readBit id = .ok bit) ↔ id ∈ r.past.bits.flatten) ∧
    (∀ id bit, (∃ t, r.storage.writeBit id bit = .ok t) ↔ id ∈ r.past.bits.flatten) ∧
    ∀ id bit, r.storage.readBit id = .ok bit → bit = (r.past.writes id).getLastD false := by
  intro r
  have tracks : r.storage.Tracks r.past := tracks_run tracks_empty ops
  have apart := pairwise_disjoint_of_flatten (fun _ _ => QubitId.mk.inj) tracks.qubits
  have apart' := pairwise_disjoint_of_flatten (fun _ _ => BitId.mk.inj) tracks.bits
  refine ⟨⟨tracks.qubits, apart⟩, ⟨tracks.bits, apart'⟩, tracks.allocates_qubits,
    tracks.allocates_bits, fun id => ?_, fun id bit => ?_, fun id bit read => ?_⟩
  · simp [readBit_eq_ok_iff, tracks.mem_bits_iff]
  · simp [writeBit_eq_ok_iff, tracks.mem_bits_iff]
  · rw [← (readBit_eq_ok_iff.mp read).2]
    exact tracks.content id

theorem holds_by_history_of_refused :
    let ops : List Operation :=
      [.allocBits 2, .writeBit ⟨1⟩ true, .writeBit ⟨2⟩ true, .allocBits maxCount, .allocBits 1,
        .allocQubits 1, .writeBit ⟨0⟩ true, .writeBit ⟨1⟩ false]
    let r := run .start ops
    r.past.bits.Pairwise List.Disjoint ∧ (∃ t, r.storage.writeBit ⟨2⟩ true = .ok t) ∧
      r.storage.readBit ⟨0⟩ = .ok true ∧ r.storage.readBit ⟨1⟩ = .ok false ∧
      r.storage.readBit ⟨2⟩ = .ok false ∧ (Operation.allocBits maxCount).perform r = r ∧
      ∃ ids t, r.storage.allocQubits 4294967294 = .ok (ids, t) ∧ t.qubits = maxCount := by
  intro ops r
  obtain ⟨-, ⟨-, apart⟩, qubits, bits, readable, writable, held⟩ := holds_by_history ops
  have read (id : BitId) (bit : Bool) (allocated : id ∈ r.past.bits.flatten)
      (last : (r.past.writes id).getLastD false = bit) : r.storage.readBit id = .ok bit := by
    obtain ⟨_, found⟩ := (readable id).mpr allocated
    rw [found, held id _ found, last]
  have full : r.storage.allocBits maxCount = .error (.invalidWidth .bit maxCount) :=
    (bits.refused maxCount _).mpr ⟨by decide +kernel, rfl⟩
  have room : grow (.ofNat r.storage.qubits) 4294967294 = some 4294967295 := by decide +kernel
  exact ⟨apart, (writable ⟨2⟩ true).mpr (by decide +kernel),
    read ⟨0⟩ true (by decide +kernel) (by decide +kernel),
    read ⟨1⟩ false (by decide +kernel) (by decide +kernel),
    read ⟨2⟩ false (by decide +kernel) (by decide +kernel),
    bits.unchanged maxCount _ full, (qubits.words 4294967294 4294967295).mp room⟩

end Storage

end QasmValues
