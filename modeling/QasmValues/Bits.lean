import QasmValues.Index
import QasmValues.Overwrite

/-! Bit strings of a fixed length.
Position 0 is the least significant bit; the text of a bit string starts with
the most significant one. No operation changes the length of what it writes to. -/

namespace QasmValues

/-- Bits, least significant first. -/
structure Bits where
  toList : List Bool
  deriving DecidableEq, Repr, Inhabited

namespace Bits

def length (b : Bits) : Nat := b.toList.length

/-- The length as the width of a type, which keeps its low 32 bits. -/
def width (b : Bits) : Nat := b.length % twoPow 32

def zeros (length : Nat) : Bits := ⟨List.replicate length false⟩

def ofNat (n length : Nat) : Bits := ⟨(List.range length).map n.testBit⟩

def toNat (b : Bits) : Nat := b.toList.foldr (fun bit n => 2 * n + bit.toNat) 0

def toWord (b : Bits) : UInt64 := UInt64.ofNat b.toNat

def any (b : Bits) : Bool := b.toList.any id

def popcount (b : Bits) : Nat := b.toList.count true

def append (low high : Bits) : Bits := ⟨low.toList ++ high.toList⟩

instance : Append Bits := ⟨append⟩

def digit (bit : Bool) : Char := if bit then '1' else '0'

def ofDigit (c : Char) : Except Fault Bool :=
  if c = '0' then .ok false else if c = '1' then .ok true else .error (.badBit c)

def text (b : Bits) : String := String.ofList (b.toList.reverse.map digit)

/-- Read a bit string of a given length. An underscore separates digits and
counts for nothing; of several bad characters the rightmost is reported. -/
def parse (text : String) (length : Nat) : Except Fault Bits :=
  let digits := text.toList.filter (· ≠ '_')
  if digits.length = length then do pure ⟨← digits.reverse.mapM ofDigit⟩
  else .error (.lengthMismatch length digits.length)

def get (b : Bits) (index : Int64) : Except Fault Bool := do
  let position ← resolveIndex index b.length
  pure (b.toList.getD position false)

def set (b : Bits) (index : Int64) (bit : Bool) : Except Fault Bits := do
  let position ← resolveIndex index b.length
  pure ⟨b.toList.set position bit⟩

def slice (b : Bits) (spec : IndexSpec) : Except Fault Bits := do
  let positions ← spec.resolve b.length
  pure ⟨positions.map (b.toList.getD · false)⟩

/-- Overwrite the selected bits by a bit string of just as many. -/
def setSlice (b : Bits) (spec : IndexSpec) (value : Bits) : Except Fault Bits := do
  let positions ← spec.resolve b.length
  if positions.length = value.length then pure ⟨overwrite b.toList (positions.zip value.toList)⟩
  else .error (.shapeMismatch (.single (.bit positions.length)) (.single (.bit value.length)))

def rotateUp (b : Bits) (distance : Nat) : Bits :=
  let length := b.length
  let shift := distance % length
  ⟨(List.range length).map fun i => b.toList.getD ((i + length - shift) % length) false⟩

def rotl (b : Bits) (distance : Int64) : Bits :=
  b.rotateUp (distance.toInt % b.length).toNat

/-- Rotate toward the least significant bit, by the negated 64-bit distance. -/
def rotr (b : Bits) (distance : Int64) : Bits := b.rotl (-distance)

theorem width_of_le {b : Bits} (h : b.length ≤ maxWidth) : b.width = b.length :=
  Nat.mod_eq_of_lt (Nat.lt_of_le_pred (twoPow_pos 32) h)

theorem width_of_word {b : Bits} (h : b.length ≤ wordWidth) : b.width = b.length :=
  width_of_le (Nat.le_trans h (by decide))

theorem width_congr {b c : Bits} (h : b.length = c.length) : b.width = c.width :=
  congrArg (· % twoPow 32) h

@[simp] theorem length_zeros (n : Nat) : (zeros n).length = n := List.length_replicate

@[simp] theorem length_ofNat (n length : Nat) : (ofNat n length).length = length := by
  simp [ofNat, Bits.length]

@[simp] theorem length_append (low high : Bits) :
    (low ++ high).length = low.length + high.length :=
  List.length_append

@[simp] theorem length_rotl (b : Bits) (distance : Int64) :
    (b.rotl distance).length = b.length := by
  simp [rotl, rotateUp, Bits.length]

@[simp] theorem length_rotr (b : Bits) (distance : Int64) : (b.rotr distance).length = b.length :=
  length_rotl b _

end Bits

end QasmValues
