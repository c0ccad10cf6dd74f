import QasmValues.Bits
import QasmValues.Storage

/-! Registers: lists of references into storage, least significant first.
A part or a join of registers refers to the same storage, so what is written
through one is read through the others. No join names a bit or a qubit twice. -/

namespace QasmValues

/-- References into storage, least significant first. -/
structure Register (ι : Type) where
  ids : List ι
  label : Option String
  deriving DecidableEq, Repr

abbrev QubitRegister := Register QubitId

abbrev BitRegister := Register BitId

namespace Register

variable {ι : Type}

def ofIds (ids : List ι) : Register ι := ⟨ids, none⟩

def withLabel (r : Register ι) (label : String) : Register ι := ⟨r.ids, some label⟩

def length (r : Register ι) : Nat := r.ids.length

def id (r : Register ι) (index : Int64) : Except Fault ι := do
  let position ← resolveIndex index r.length
  match r.ids[position]? with
  | some id => pure id
  | none => .error (.indexOutOfRange index.toInt r.length)

/-- The selected references, at least one of them. -/
def slice (r : Register ι) (spec : IndexSpec) : Except Fault (Register ι) := do
  let positions ← spec.resolveNonEmpty r.length
  pure (ofIds (positions.filterMap (r.ids[·]?)))

variable [DecidableEq ι]

def overlaps (r t : Register ι) : Bool := t.ids.any (· ∈ r.ids)

/-- The references of `r` and then those of `t`, which must be others. -/
def append (r t : Register ι) : Except Fault (Register ι) :=
  if r.overlaps t then .error .selfConcatenation else .ok (ofIds (r.ids ++ t.ids))

theorem overlaps_iff {r t : Register ι} : r.overlaps t = true ↔ ∃ i, i ∈ r.ids ∧ i ∈ t.ids := by
  simp [overlaps, and_comm]

end Register

namespace Register

def read (r : BitRegister) (s : Storage) : Except Fault Bits := do
  pure ⟨← r.ids.mapM s.readBit⟩

def getBit (r : BitRegister) (s : Storage) (index : Int64) : Except Fault Bool := do
  s.readBit (← r.id index)

def setBit (r : BitRegister) (s : Storage) (index : Int64) (bit : Bool) : Except Fault Storage := do
  s.writeBit (← r.id index) bit

def write (r : BitRegister) (s : Storage) (value : Bits) : Except Fault Storage :=
  if value.length = r.length then s.writeBits (r.ids.zip value.toList)
  else .error (.shapeMismatch (.single (.bit r.length)) (.single (.bit value.length)))

def readSlice (r : BitRegister) (s : Storage) (spec : IndexSpec) : Except Fault Bits := do
  (← r.slice spec).read s

def writeSlice (r : BitRegister) (s : Storage) (spec : IndexSpec) (value : Bits) :
    Except Fault Storage := do
  (← r.slice spec).write s value

end Register

end QasmValues
