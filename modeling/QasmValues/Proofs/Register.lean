import QasmValues.Proofs.Bits
import QasmValues.Proofs.Storage
import QasmValues.Register

/-! Registers as bit strings.
Over storage that holds all its bits a register behaves as the string of their
contents: parts, joins and writes lead to the same strings and the same faults,
and so does every nesting of parts and joins. Only the empty part differs, which
is a bit string but no register. -/

namespace QasmValues

namespace Register

variable {ι : Type} {r t u : Register ι} {spec : IndexSpec}

theorem slice_eq_ok_iff :
    r.slice spec = .ok t ↔ ∃ positions, spec.resolve r.length = .ok positions ∧
      positions ≠ [] ∧ t = ofIds (positions.filterMap (r.ids[·]?)) := by
  simp only [slice, bind_eq_ok_iff, IndexSpec.resolveNonEmpty_eq_ok_iff, pure_eq_ok_iff,
    eq_comm (a := t), and_assoc]

theorem mem_of_slice (h : r.slice spec = .ok t) {id : ι} (member : id ∈ t.ids) : id ∈ r.ids := by
  obtain ⟨positions, -, -, rfl⟩ := slice_eq_ok_iff.mp h
  obtain ⟨position, -, found⟩ := List.mem_filterMap.mp member
  exact List.mem_of_getElem? found

theorem append_eq_ok_iff [DecidableEq ι] :
    r.append t = .ok u ↔ r.overlaps t = false ∧ u = ofIds (r.ids ++ t.ids) := by
  unfold append
  split
  · rename_i shared
    simp [shared]
  · rename_i apart
    simp [apart, eq_comm (a := u)]

end Register

/-- A register expression: registers, their parts and their joins. -/
inductive RegisterExpr (ι : Type) where
  | register (r : Register ι)
  | slice (e : RegisterExpr ι) (spec : IndexSpec)
  | append (e f : RegisterExpr ι)

namespace RegisterExpr

variable {ι : Type}

def resolve [DecidableEq ι] : RegisterExpr ι → Except Fault (Register ι)
  | register r => .ok r
  | slice e spec => do (← e.resolve).slice spec
  | append e f => do (← e.resolve).append (← f.resolve)

def Over (known : Register ι → Prop) : RegisterExpr ι → Prop
  | register r => known r
  | slice e _ => e.Over known
  | append e f => e.Over known ∧ f.Over known

theorem Over.imp {known expected : Register ι → Prop} {e : RegisterExpr ι} (h : e.Over known)
    (imp : ∀ r, known r → expected r) : e.Over expected := by
  induction e with
  | register r => exact imp r h
  | slice e spec ih => exact ih h
  | append e f ihe ihf => exact ⟨ihe h.1, ihf h.2⟩

def content (s : Storage) : RegisterExpr BitId → Except Fault Bits
  | register r => r.read s
  | slice e spec => do (← e.content s).slice spec
  | append e f => do pure ((← e.content s) ++ (← f.content s))

theorem forall_ids_of_resolve [DecidableEq ι] {P : ι → Prop} {e : RegisterExpr ι}
    {t : Register ι} (known : e.Over fun r => ∀ id ∈ r.ids, P id) (h : e.resolve = .ok t) :
    ∀ id ∈ t.ids, P id := by
  induction e generalizing t with
  | register r =>
    cases h
    exact known
  | slice e spec ih =>
    obtain ⟨r, hr, h⟩ := bind_eq_ok_iff.mp h
    intro id member
    exact ih known hr id (Register.mem_of_slice h member)
  | append e f ihe ihf =>
    obtain ⟨r, hr, h⟩ := bind_eq_ok_iff.mp h
    obtain ⟨u, hu, h⟩ := bind_eq_ok_iff.mp h
    obtain ⟨-, rfl⟩ := Register.append_eq_ok_iff.mp h
    exact List.forall_mem_append.mpr ⟨ihe known.1 hr, ihf known.2 hu⟩

end RegisterExpr

namespace Register

variable {r r₂ t : BitRegister} {s s₂ : Storage} {spec : IndexSpec} {b b₂ c v : Bits}

def Allocated (r : BitRegister) (s : Storage) : Prop := ∀ id ∈ r.ids, id.index < s.bits.length

def places (r : BitRegister) : List Nat := r.ids.map (·.index)

@[simp] theorem length_places : r.places.length = r.length := List.length_map _

theorem places_lt (h : r.Allocated s) : ∀ place ∈ r.places, place < s.bits.length := by
  intro place member
  obtain ⟨id, inside, rfl⟩ := List.mem_map.mp member
  exact h id inside

theorem places_slice {positions : List Nat} (inside : ∀ position ∈ positions, position < r.length) :
    (ofIds (positions.filterMap (r.ids[·]?))).places = positions.map (r.places.getD · 0) := by
  induction positions with
  | nil => rfl
  | cons position positions ih =>
    obtain ⟨here, rest⟩ := List.forall_mem_cons.mp inside
    have id : r.ids[position]? = some r.ids[position] := List.getElem?_eq_getElem here
    have place : r.places.getD position 0 = r.ids[position].index := by simp [places, id]
    simp only [places, ofIds, List.map_cons] at ih ⊢
    rw [List.filterMap_cons_some id, List.map_cons, ih rest, ← place]
    rfl

theorem read_eq_ok_iff :
    r.read s = .ok b ↔ r.Allocated s ∧ b = ⟨r.places.map (s.bits.getD · false)⟩ := by
  rw [read, bind_eq_ok_iff]
  simp only [mapM_eq_ok_iff fun id bit => Storage.readBit_eq_ok_iff, pure_eq_ok_iff]
  constructor
  · rintro ⟨_, ⟨all, rfl⟩, rfl⟩
    exact ⟨all, by rw [places, List.map_map]; rfl⟩
  · rintro ⟨all, rfl⟩
    exact ⟨_, ⟨all, rfl⟩, by rw [places, List.map_map]; rfl⟩

theorem write_eq_ok_iff :
    r.write s v = .ok s₂ ↔ v.length = r.length ∧ r.Allocated s ∧
      s₂ = { s with bits := overwrite s.bits (r.places.zip v.toList) } := by
  unfold write
  split
  · rename_i same
    have all : (∀ write ∈ r.ids.zip v.toList, write.1.index < s.bits.length) ↔ r.Allocated s := by
      have ids : (r.ids.zip v.toList).map Prod.fst = r.ids :=
        List.map_fst_zip (Nat.le_of_eq same.symm)
      constructor
      · intro h id member
        rw [← ids] at member
        obtain ⟨write, inside, rfl⟩ := List.mem_map.mp member
        exact h write inside
      · intro h write member
        exact h write.1 (List.of_mem_zip member).1
    have pairs : (r.ids.zip v.toList).map (fun write => (write.1.index, write.2)) =
        r.places.zip v.toList := by
      rw [places, List.zip_map_left]
      rfl
    rw [Storage.writeBits_eq_ok_iff, all, pairs, and_iff_right same]
  · rename_i other
    simp [other]

def store (r : BitRegister) (s : Storage) (value : Bits) : Except Fault Unit × Storage :=
  if value.length = r.length then s.storeBits (r.ids.zip value.toList)
  else (.error (.shapeMismatch (.single (.bit r.length)) (.single (.bit value.length))), s)

theorem store_eq (r : BitRegister) (s : Storage) (value : Bits) :
    r.store s value = concluded s (r.write s value) := by
  unfold store write
  split
  · exact s.storeBits_eq _
  · rfl

/-- Selected bits of a register stored in place. -/
def storeSlice (r : BitRegister) (s : Storage) (spec : IndexSpec) (value : Bits) :
    Except Fault Unit × Storage :=
  match r.slice spec with
  | .error e => (.error e, s)
  | .ok part => part.store s value

theorem storeSlice_eq (r : BitRegister) (s : Storage) (spec : IndexSpec) (value : Bits) :
    r.storeSlice s spec value = concluded s (r.writeSlice s spec value) := by
  unfold storeSlice writeSlice
  cases r.slice spec with
  | error e => rfl
  | ok part => exact part.store_eq s value

theorem counts_of_writeSlice (h : r.writeSlice s spec v = .ok s₂) :
    s₂.qubits = s.qubits ∧ s₂.bits.length = s.bits.length := by
  obtain ⟨t, -, written⟩ := bind_eq_ok_iff.mp h
  obtain ⟨-, -, rfl⟩ := write_eq_ok_iff.mp written
  exact ⟨rfl, length_overwrite _ _⟩

/-- The register has the contents `b` in the storage and is used as they are: its
parts, its joins and its writes are those of `b`. -/
structure ActsAs (r : BitRegister) (s : Storage) (b : Bits) : Prop where
  read : r.read s = .ok b
  slice : ∀ spec c, b.slice spec = .ok c → c.length ≠ 0 →
    ∃ t, r.slice spec = .ok t ∧ t.read s = .ok c
  slice_empty : ∀ spec c, b.slice spec = .ok c → c.length = 0 →
    r.slice spec = .error .emptyIndexSet
  slice_fault : ∀ spec e, b.slice spec = .error e → r.slice spec = .error e
  append : ∀ (r₂ t : BitRegister), r₂.Allocated s → r.append r₂ = .ok t →
    ∃ b₂, r₂.read s = .ok b₂ ∧ t.read s = .ok (b ++ b₂)
  write : r.ids.Nodup → ∀ spec v s₂, r.writeSlice s spec v = .ok s₂ →
    ∃ c, b.setSlice spec v = .ok c ∧ r.read s₂ = .ok c

theorem length_eq_of_read (h : r.read s = .ok b) : b.length = r.length := by
  obtain ⟨-, rfl⟩ := read_eq_ok_iff.mp h
  simp [Bits.length]

theorem read_slice (hr : r.read s = .ok b) (ht : r.slice spec = .ok t) :
    ∃ c, b.slice spec = .ok c ∧ t.read s = .ok c := by
  have length := length_eq_of_read hr
  obtain ⟨all, rfl⟩ := read_eq_ok_iff.mp hr
  have part : t.Allocated s := fun id member => all id (mem_of_slice ht member)
  obtain ⟨positions, resolved, -, rfl⟩ := slice_eq_ok_iff.mp ht
  have inside := IndexSpec.resolve_lt resolved
  refine ⟨_, Bits.slice_eq_ok_iff.mpr ⟨positions, length ▸ resolved, rfl⟩,
    read_eq_ok_iff.mpr ⟨part, ?_⟩⟩
  rw [places_slice inside, List.map_map]
  congr 1
  refine List.map_congr_left fun position member => ?_
  have bound : position < r.places.length := by simpa using inside position member
  have place := List.getElem?_eq_getElem bound
  simp [place]

theorem read_append (hr : r.read s = .ok b) (hr₂ : r₂.read s = .ok b₂)
    (ht : r.append r₂ = .ok t) : t.read s = .ok (b ++ b₂) := by
  obtain ⟨-, rfl⟩ := append_eq_ok_iff.mp ht
  obtain ⟨all, rfl⟩ := read_eq_ok_iff.mp hr
  obtain ⟨all₂, rfl⟩ := read_eq_ok_iff.mp hr₂
  refine read_eq_ok_iff.mpr ⟨List.forall_mem_append.mpr ⟨all, all₂⟩, ?_⟩
  change (⟨_ ++ _⟩ : Bits) = _
  simp [places, ofIds]

theorem read_writeSlice (distinct : r.ids.Nodup) (hr : r.read s = .ok b)
    (hw : r.writeSlice s spec v = .ok s₂) :
    ∃ c, b.setSlice spec v = .ok c ∧ r.read s₂ = .ok c := by
  have length := length_eq_of_read hr
  obtain ⟨all, rfl⟩ := read_eq_ok_iff.mp hr
  obtain ⟨t, ht, hw⟩ := bind_eq_ok_iff.mp hw
  obtain ⟨same, -, rfl⟩ := write_eq_ok_iff.mp hw
  obtain ⟨positions, resolved, -, rfl⟩ := slice_eq_ok_iff.mp ht
  have inside := IndexSpec.resolve_lt resolved
  have count : positions.length = v.length := by
    rw [same, ← length_places, places_slice inside, List.length_map]
  have places_distinct : r.places.Nodup :=
    distinct.map fun i j h => by cases i; cases j; exact congrArg BitId.mk h
  refine ⟨_, Bits.setSlice_eq_ok_iff.mpr ⟨positions, length ▸ resolved, count, rfl⟩,
    read_eq_ok_iff.mpr ⟨fun id member => ?_, ?_⟩⟩
  · rw [length_overwrite]
    exact all id member
  · have within : ∀ write ∈ positions.zip v.toList, write.1 < r.places.length := by
      intro write member
      rw [length_places]
      exact inside write.1 (List.of_mem_zip member).1
    rw [places_slice inside, List.zip_map_left,
      ← map_getD_overwrite false s.bits places_distinct (places_lt all) _ within]
    rfl

theorem actsAs_of_read (hr : r.read s = .ok b) : r.ActsAs s b where
  read := hr
  slice spec c hc filled := by
    have length := length_eq_of_read hr
    obtain ⟨positions, resolved, rfl⟩ := Bits.slice_eq_ok_iff.mp hc
    have nonempty : positions ≠ [] := by
      rintro rfl
      exact filled rfl
    have part := slice_eq_ok_iff.mpr ⟨positions, length ▸ resolved, nonempty, rfl⟩
    obtain ⟨d, hd, ht⟩ := read_slice hr part
    rw [hc] at hd
    cases hd
    exact ⟨_, part, ht⟩
  slice_empty spec c hc empty := by
    have length := length_eq_of_read hr
    obtain ⟨positions, resolved, rfl⟩ := Bits.slice_eq_ok_iff.mp hc
    have none : positions = [] := by simpa [Bits.length] using empty
    rw [Register.slice, IndexSpec.resolveNonEmpty, ← length, resolved, none]
    rfl
  slice_fault spec e he := by
    have length := length_eq_of_read hr
    rw [Bits.slice_eq_error_iff, length] at he
    rw [Register.slice, IndexSpec.resolveNonEmpty, he]
    rfl
  append r₂ t all₂ ht :=
    have hr₂ := read_eq_ok_iff.mpr ⟨all₂, rfl⟩
    ⟨_, hr₂, read_append hr hr₂ ht⟩
  write distinct _ _ _ hw := read_writeSlice distinct hr hw

theorem readSlice_full (hr : r.read s = .ok b) (filled : b.length ≠ 0)
    (short : b.length ≤ maxLength) : r.readSlice s .full = .ok b := by
  obtain ⟨t, part, read⟩ := (actsAs_of_read hr).slice .full b (Bits.slice_full short) filled
  rw [readSlice, part]
  exact read

/-- A register expression over allocated registers reads as the same expression of
their contents. -/
theorem read_resolve {e : RegisterExpr BitId} (known : e.Over (Allocated · s))
    (h : e.resolve = .ok t) : ∃ c, e.content s = .ok c ∧ t.read s = .ok c := by
  induction e generalizing t with
  | register r =>
    cases h
    have hr := read_eq_ok_iff.mpr ⟨known, rfl⟩
    exact ⟨_, hr, hr⟩
  | slice e spec ih =>
    obtain ⟨r, hr, h⟩ := bind_eq_ok_iff.mp h
    obtain ⟨b, hb, read⟩ := ih known hr
    obtain ⟨c, hc, part⟩ := read_slice read h
    exact ⟨c, bind_eq_ok_iff.mpr ⟨b, hb, hc⟩, part⟩
  | append e f ihe ihf =>
    obtain ⟨r, hr, h⟩ := bind_eq_ok_iff.mp h
    obtain ⟨u, hu, h⟩ := bind_eq_ok_iff.mp h
    obtain ⟨b, hb, left⟩ := ihe known.1 hr
    obtain ⟨c, hc, right⟩ := ihf known.2 hu
    refine ⟨b ++ c, ?_, read_append left right h⟩
    rw [RegisterExpr.content, hb, hc]
    rfl

/-- Allocated registers act as bit strings, and so do all expressions of them. -/
theorem acts_as_bits (s : Storage) :
    (∀ r : BitRegister, r.Allocated s → ∃ b, r.ActsAs s b) ∧
      ∀ (e : RegisterExpr BitId) (t : BitRegister), e.Over (Allocated · s) →
        e.resolve = .ok t → ∃ c, e.content s = .ok c ∧ t.ActsAs s c := by
  constructor
  · intro r all
    exact ⟨_, actsAs_of_read (read_eq_ok_iff.mpr ⟨all, rfl⟩)⟩
  · intro e t known h
    obtain ⟨c, hc, read⟩ := read_resolve known h
    exact ⟨c, hc, actsAs_of_read read⟩

theorem acts_as_bits_of_nested :
    let s : Storage := ⟨0, [true, false, true]⟩
    let r : BitRegister := ofIds [⟨2⟩, ⟨1⟩, ⟨0⟩]
    let e : RegisterExpr BitId :=
      .append (.slice (.register r) (.set [0, -2, 0]))
        (.slice (.slice (.register r) (.range none (some (-1)) none)) (.single 0))
    (e.Over (Allocated · s) ∧ e.resolve = .ok (ofIds [⟨2⟩, ⟨1⟩, ⟨2⟩, ⟨0⟩])) ∧
      ∃ c, e.content s = .ok c ∧ (ofIds [⟨2⟩, ⟨1⟩, ⟨2⟩, ⟨0⟩] : BitRegister).ActsAs s c := by
  intro s r e
  have known : e.Over (Allocated · s) := by simp [e, r, s, RegisterExpr.Over, Allocated, ofIds]
  have resolved : e.resolve = .ok (ofIds [⟨2⟩, ⟨1⟩, ⟨2⟩, ⟨0⟩]) := by decide
  exact ⟨⟨known, resolved⟩, (acts_as_bits s).2 e _ known resolved⟩

end Register

end QasmValues
