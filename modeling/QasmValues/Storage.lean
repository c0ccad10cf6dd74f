import QasmValues.Fault
import QasmValues.Overwrite
import QasmValues.TwoPow

/-! The qubits and classical bits of a program.
Both are numbered from zero in the order of allocation and never freed. A
number fits 32 bits, so an allocation that would pass the last one is refused.
Qubits have no content here; a new bit is zero. -/

namespace QasmValues

structure QubitId where
  index : Nat
  deriving DecidableEq, Repr

structure BitId where
  index : Nat
  deriving DecidableEq, Repr

def QubitId.text (id : QubitId) : String := s!"q{id.index}"

def BitId.text (id : BitId) : String := s!"c{id.index}"

/-- There are at most this many qubits, and at most this many bits. -/
def maxCount : Nat := twoPow 32 - 1

/-- How many qubits there are, and the content of every bit. -/
structure Storage where
  qubits : Nat
  bits : List Bool
  deriving DecidableEq, Repr

namespace Storage

def empty : Storage := ⟨0, []⟩

def checkRoom (family : Family) (count size : Nat) : Except Fault Unit :=
  if count + size ≤ maxCount then .ok () else .error (.invalidWidth family (min size maxCount))

def allocQubits (s : Storage) (size : Nat) : Except Fault (List QubitId × Storage) := do
  checkRoom .qubit s.qubits size
  pure ((List.range' s.qubits size).map QubitId.mk, { s with qubits := s.qubits + size })

def allocBits (s : Storage) (size : Nat) : Except Fault (List BitId × Storage) := do
  checkRoom .bit s.bits.length size
  pure ((List.range' s.bits.length size).map BitId.mk,
    { s with bits := s.bits ++ List.replicate size false })

def place (s : Storage) (id : BitId) : Except Fault Nat :=
  if id.index < s.bits.length then .ok id.index
  else .error (.indexOutOfRange id.index s.bits.length)

def readBit (s : Storage) (id : BitId) : Except Fault Bool := do
  pure (s.bits.getD (← s.place id) false)

def writeBit (s : Storage) (id : BitId) (bit : Bool) : Except Fault Storage := do
  pure { s with bits := s.bits.set (← s.place id) bit }

/-- Write several bits in order, or none if one of them is not allocated. -/
def writeBits (s : Storage) (writes : List (BitId × Bool)) : Except Fault Storage := do
  let places ← writes.mapM (s.place ·.1)
  pure { s with bits := overwrite s.bits (places.zip (writes.map Prod.snd)) }

theorem place_eq_ok_iff {s : Storage} {id : BitId} {place : Nat} :
    s.place id = .ok place ↔ id.index < s.bits.length ∧ id.index = place := by
  unfold Storage.place
  split
  · simp_all
  · rename_i h
    simp [h]

end Storage

end QasmValues
