import QasmValues.Proofs.InPlace
import QasmValues.Proofs.Outcome
import QasmValues.Proofs.Overwrite
import QasmValues.Storage

/-! Allocation and access in storage.
An allocation is refused only for lack of numbers and otherwise extends the
storage by the next numbers. An access succeeds on allocated bits, and one to
several bits only if all of them are. -/

namespace QasmValues

theorem BitId.index_injective : Function.Injective BitId.index := by
  intro i j same
  cases i
  cases j
  exact congrArg BitId.mk same

theorem map_range_append_range' {ι : Type} (mk : Nat → ι) (count size : Nat) :
    (List.range count).map mk ++ (List.range' count size).map mk =
      (List.range (count + size)).map mk := by
  rw [← List.map_append, List.range_add, ← List.range'_eq_map_range]

namespace Storage

variable {s t : Storage}

theorem checkRoom_eq_ok_iff {family : Family} {count size : Nat} :
    checkRoom family count size = .ok () ↔ count + size ≤ maxCount := by
  unfold checkRoom
  split <;> simp_all

theorem allocQubits_eq_ok_iff {size : Nat} {ids : List QubitId} :
    s.allocQubits size = .ok (ids, t) ↔ s.qubits + size ≤ maxCount ∧
      ids = (List.range' s.qubits size).map QubitId.mk ∧
      t = { s with qubits := s.qubits + size } := by
  rw [allocQubits, check_bind_eq_ok_iff, checkRoom_eq_ok_iff, pure_eq_ok_iff, Prod.mk.injEq]
  exact and_congr_right fun _ => and_congr eq_comm eq_comm

theorem allocBits_eq_ok_iff {size : Nat} {ids : List BitId} :
    s.allocBits size = .ok (ids, t) ↔ s.bits.length + size ≤ maxCount ∧
      ids = (List.range' s.bits.length size).map BitId.mk ∧
      t = { s with bits := s.bits ++ List.replicate size false } := by
  rw [allocBits, check_bind_eq_ok_iff, checkRoom_eq_ok_iff, pure_eq_ok_iff, Prod.mk.injEq]
  exact and_congr_right fun _ => and_congr eq_comm eq_comm

theorem checkRoom_eq_error_iff {family : Family} {count size : Nat} {e : Fault} :
    checkRoom family count size = .error e ↔
      maxCount < count + size ∧ e = .invalidWidth family (min size maxCount) := by
  unfold checkRoom
  split
  · rename_i room
    simp [Nat.not_lt.mpr room]
  · rename_i full
    simp [Nat.lt_of_not_le full, eq_comm]

theorem allocQubits_eq_error_iff {size : Nat} {e : Fault} :
    s.allocQubits size = .error e ↔
      maxCount < s.qubits + size ∧ e = .invalidWidth .qubit (min size maxCount) := by
  rw [allocQubits, bind_eq_error_iff, checkRoom_eq_error_iff]
  simp [pure, Except.pure]

theorem allocBits_eq_error_iff {size : Nat} {e : Fault} :
    s.allocBits size = .error e ↔
      maxCount < s.bits.length + size ∧ e = .invalidWidth .bit (min size maxCount) := by
  rw [allocBits, bind_eq_error_iff, checkRoom_eq_error_iff]
  simp [pure, Except.pure]

theorem writeBit_eq_ok_iff {id : BitId} {bit : Bool} :
    s.writeBit id bit = .ok t ↔ id.index < s.bits.length ∧
      t = { s with bits := s.bits.set id.index bit } := by
  simp only [writeBit, bind_eq_ok_iff, place_eq_ok_iff, pure_eq_ok_iff]
  constructor
  · rintro ⟨_, ⟨inside, rfl⟩, rfl⟩
    exact ⟨inside, rfl⟩
  · rintro ⟨inside, rfl⟩
    exact ⟨_, ⟨inside, rfl⟩, rfl⟩

/-- A write to several bits succeeds when all of them are allocated, and then
overwrites them in order. -/
theorem writeBits_eq_ok_iff {writes : List (BitId × Bool)} :
    s.writeBits writes = .ok t ↔ (∀ write ∈ writes, write.1.index < s.bits.length) ∧
      t = { s with
        bits := overwrite s.bits (writes.map fun write => (write.1.index, write.2)) } := by
  rw [writeBits, bind_eq_ok_iff]
  simp only [mapM_eq_ok_iff fun write place => place_eq_ok_iff, pure_eq_ok_iff]
  constructor
  · rintro ⟨_, ⟨all, rfl⟩, rfl⟩
    exact ⟨all, by rw [List.zip_map']⟩
  · rintro ⟨all, rfl⟩
    exact ⟨_, ⟨all, rfl⟩, by rw [List.zip_map']⟩

/-- Several bits stored in place, once all of them are found. -/
def storeBits (s : Storage) (writes : List (BitId × Bool)) : Except Fault Unit × Storage :=
  match writes.mapM (s.place ·.1) with
  | .error e => (.error e, s)
  | .ok places =>
    let (report, bits) := storeEach s.bits (places.zip (writes.map Prod.snd))
    (report, { s with bits })

theorem storeBits_eq (s : Storage) (writes : List (BitId × Bool)) :
    s.storeBits writes = concluded s (s.writeBits writes) := by
  unfold storeBits writeBits
  cases found : writes.mapM (s.place ·.1) with
  | error e => rfl
  | ok places =>
    obtain ⟨allocated, rfl⟩ := (mapM_eq_ok_iff fun write place => place_eq_ok_iff).mp found
    have inside : ∀ write ∈ (writes.map (·.1.index)).zip (writes.map Prod.snd),
        write.1 < s.bits.length := fun write member => by
      obtain ⟨given, listed, place⟩ := List.mem_map.mp (List.of_mem_zip member).1
      exact place ▸ allocated given listed
    dsimp only
    rw [storeEach_of_inside inside]
    rfl

theorem readBit_eq_ok_iff {id : BitId} {bit : Bool} :
    s.readBit id = .ok bit ↔ id.index < s.bits.length ∧ s.bits.getD id.index false = bit := by
  simp only [readBit, bind_eq_ok_iff, place_eq_ok_iff, pure_eq_ok_iff]
  constructor
  · rintro ⟨_, ⟨inside, rfl⟩, rfl⟩
    exact ⟨inside, rfl⟩
  · rintro ⟨inside, rfl⟩
    exact ⟨_, ⟨inside, rfl⟩, rfl⟩

end Storage

end QasmValues
