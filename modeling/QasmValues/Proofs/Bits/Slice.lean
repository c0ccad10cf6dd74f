import QasmValues.Proofs.Bits
import QasmValues.Proofs.InPlace

/-! Overwriting a part of a bit string.
The part is read and written at the same positions, so that writing back what was read
changes nothing. In place the bits are written one after the other, and no write undoes
the earlier ones: what must be checked is checked before the first of them. -/

namespace QasmValues.Bits

variable {b c value : Bits} {spec : IndexSpec} {positions : List Nat}

/-- Overwrite the selected bits in place: the outcome, and the bits that are left. -/
def writeSlice (b : Bits) (spec : IndexSpec) (value : Bits) : Except Fault Unit × Bits :=
  match spec.resolve b.length with
  | .error e => (.error e, b)
  | .ok positions =>
    if positions.length = value.length then
      let (report, bits) := storeEach b.toList (positions.zip value.toList)
      (report, ⟨bits⟩)
    else
      (.error (.shapeMismatch (.single (.bit positions.length)) (.single (.bit value.length))), b)

theorem writeSlice_eq (b : Bits) (spec : IndexSpec) (value : Bits) :
    b.writeSlice spec value = concluded b (b.setSlice spec value) := by
  unfold writeSlice setSlice
  cases resolved : spec.resolve b.length with
  | error e => rfl
  | ok positions =>
    have inside : ∀ write ∈ positions.zip value.toList, write.1 < b.toList.length :=
      fun write member => IndexSpec.resolve_lt resolved write.1 (List.of_mem_zip member).1
    by_cases same : positions.length = value.length
    · simp [same, storeEach_of_inside inside, bind, Except.bind, pure, Except.pure, concluded]
    · simp [same, bind, Except.bind, concluded]

theorem exists_setSlice_iff :
    (∃ c, b.setSlice spec value = .ok c) ↔
      ∃ positions, spec.resolve b.length = .ok positions ∧ positions.length = value.length := by
  simp only [setSlice_eq_ok_iff]
  constructor
  · rintro ⟨_, positions, resolved, same, rfl⟩
    exact ⟨positions, resolved, same⟩
  · rintro ⟨positions, resolved, same⟩
    exact ⟨_, positions, resolved, same, rfl⟩

theorem setSlice_ne_notBitIndexable (t : ArrayType) :
    b.setSlice spec value ≠ .error (.notBitIndexable t) := by
  intro failed
  obtain unresolved | ⟨positions, -, failed⟩ := bind_eq_error_iff.mp failed
  · obtain fault | ⟨index, fault⟩ := IndexSpec.fault_of_resolve unresolved
    · cases fault
    · cases fault
  · split at failed
    · cases failed
    · cases failed

/-- The bit string `c` is `b` with bits written to a list of positions: a position of the
list holds the last bit for it, and another one its old bit. -/
structure Overwritten (b : Bits) (positions : List Nat) (value c : Bits) : Prop where
  length : c.length = b.length
  selected : ∀ position ∈ positions, ∃ k bit, LastAt positions position k ∧
    value.toList[k]? = some bit ∧ c.toList[position]? = some bit
  others : ∀ position, position ∉ positions → c.toList[position]? = b.toList[position]?

theorem overwritten_of_setSlice (h : b.setSlice spec value = .ok c)
    (resolved : spec.resolve b.length = .ok positions) : b.Overwritten positions value c := by
  have length := length_setSlice h
  obtain ⟨_, again, same, rfl⟩ := setSlice_eq_ok_iff.mp h
  cases resolved.symm.trans again
  refine ⟨length, fun position member => ?_, fun position => getElem?_overwrite_zip_of_not_mem⟩
  obtain ⟨k, last⟩ := exists_lastAt member
  have inside : k < value.length := same ▸ (List.getElem?_eq_some_iff.mp last.1).1
  have bit := List.getElem?_eq_getElem inside
  refine ⟨k, _, last, bit, ?_⟩
  rw [← bit]
  exact getElem?_overwrite_lastAt same last (IndexSpec.resolve_lt resolved position member)

theorem setSlice_slice (resolved : spec.resolve b.length = .ok positions) :
    ∃ part, b.slice spec = .ok part ∧ b.setSlice spec part = .ok b := by
  have held : ∀ position ∈ positions,
      b.toList[position]? = some (b.toList.getD position false) := by
    intro position member
    have inside : position < b.toList.length := IndexSpec.resolve_lt resolved position member
    simp [inside]
  refine ⟨_, slice_eq_ok_iff.mpr ⟨positions, resolved, rfl⟩,
    setSlice_eq_ok_iff.mpr ⟨positions, resolved, (List.length_map _).symm, ?_⟩⟩
  rw [overwrite_zip_map_self held]

/-- A slice can be overwritten just when its index expression denotes as many positions as
there are bits to write. It then holds these bits, the last one where a position repeats,
and the other bits stay. Otherwise all bits stay, also in place. What was read can be
written back and changes nothing, and where no position repeats what was written is read. -/
theorem setSlice_exact (b value : Bits) (spec : IndexSpec) :
    ((∃ c, b.setSlice spec value = .ok c) ↔
      ∃ positions, spec.resolve b.length = .ok positions ∧ positions.length = value.length) ∧
    (∀ c positions, b.setSlice spec value = .ok c → spec.resolve b.length = .ok positions →
      b.writeSlice spec value = (.ok (), c) ∧ b.Overwritten positions value c ∧
        (positions.Nodup → c.slice spec = .ok value)) ∧
    (∀ e, b.setSlice spec value = .error e → b.writeSlice spec value = (.error e, b)) ∧
    ∀ positions, spec.resolve b.length = .ok positions →
      ∃ part, b.slice spec = .ok part ∧ b.setSlice spec part = .ok b := by
  refine ⟨exists_setSlice_iff, fun c positions set resolved => ⟨?_, ?_, ?_⟩, fun e failed => ?_,
    fun positions => setSlice_slice⟩
  · rw [writeSlice_eq, set]
    rfl
  · exact overwritten_of_setSlice set resolved
  · exact slice_of_setSlice set resolved
  · rw [writeSlice_eq, failed]
    rfl

theorem setSlice_exact_of_repeated :
    let b : Bits := ⟨[true, false, true, true]⟩
    let value : Bits := ⟨[true, true, false]⟩
    let repeated : IndexSpec := .set [-1, 1, 3]
    let falling : IndexSpec := .range none (some (-1)) (some 1)
    (∃ c, b.setSlice repeated value = .ok c ∧ b.Overwritten [3, 1, 3] value c) ∧
    (∃ c, b.setSlice falling value = .ok c ∧ c.slice falling = .ok value) ∧
    (∃ e, b.setSlice falling b = .error e ∧ b.writeSlice falling b = (.error e, b)) ∧
    ∃ part, b.slice repeated = .ok part ∧ b.setSlice repeated part = .ok b := by
  intro b value repeated falling
  obtain ⟨possible, written, -, back⟩ := setSlice_exact b value repeated
  obtain ⟨possible', written', -, -⟩ := setSlice_exact b value falling
  obtain ⟨-, -, failed, -⟩ := setSlice_exact b b falling
  have resolved : repeated.resolve b.length = .ok [3, 1, 3] := by decide
  have resolved' : falling.resolve b.length = .ok [3, 2, 1] := by decide
  obtain ⟨c, set⟩ := possible.mpr ⟨_, resolved, rfl⟩
  obtain ⟨d, set'⟩ := possible'.mpr ⟨_, resolved', rfl⟩
  have long : b.setSlice falling b =
      .error (.shapeMismatch (.single (.bit 3)) (.single (.bit 4))) := by decide
  exact ⟨⟨c, set, (written c _ set resolved).2.1⟩,
    ⟨d, set', (written' d _ set' resolved').2.2 (by decide)⟩, ⟨_, long, failed _ long⟩,
    back _ resolved⟩

end QasmValues.Bits
