import QasmValues.TwoPow

/-! Scalar types.
A type carries its width as data, so `int[8]` and `int[16]` are two types and a
type may name a width that no value has; `Valid` says which widths have values.
A width is itself a number of 32 bits. -/

namespace QasmValues

inductive ScalarType where
  | bool
  | int (width : Nat)
  | uint (width : Nat)
  | float (width : Nat)
  | angle (width : Nat)
  | bit (width : Nat)
  | complex (width : Nat)
  | duration
  | stretch
  deriving DecidableEq, Repr, Inhabited

/-- What a width belongs to: a family of scalar types or a kind of storage. -/
inductive Family where
  | int
  | uint
  | float
  | angle
  | bit
  | complex
  | qubit
  deriving DecidableEq, Repr

def Family.text : Family → String
  | .int => "int"
  | .uint => "uint"
  | .float => "float"
  | .angle => "angle"
  | .bit => "bit"
  | .complex => "complex"
  | .qubit => "qubit"

def wordWidth : Nat := 64

/-- The largest width that a type can name. -/
def maxWidth : Nat := twoPow 32 - 1

namespace ScalarType

/-- The family and the width, for the types that have one. -/
def sized : ScalarType → Option (Family × Nat)
  | .int w => some (.int, w)
  | .uint w => some (.uint, w)
  | .float w => some (.float, w)
  | .angle w => some (.angle, w)
  | .bit w => some (.bit, w)
  | .complex w => some (.complex, w)
  | .bool | .duration | .stretch => none

def width (t : ScalarType) : Option Nat :=
  t.sized.map Prod.snd

/-- The types that have values. Floats are binary32 or binary64, and so are the
components of a complex number; a bit string holds at least one bit, and no more
than a width can count. -/
def Valid : ScalarType → Prop
  | .int w | .uint w | .angle w => 1 ≤ w ∧ w ≤ wordWidth
  | .float w | .complex w => w = 32 ∨ w = 64
  | .bit w => 1 ≤ w ∧ w ≤ maxWidth
  | .bool | .duration | .stretch => True

instance : DecidablePred Valid := fun t => by
  cases t <;> unfold Valid <;> infer_instance

def component : ScalarType → Option ScalarType
  | .complex w => some (.float w)
  | _ => none

def isNumeric : ScalarType → Bool
  | .int _ | .uint _ | .float _ => true
  | _ => false

def isBitIndexable : ScalarType → Bool
  | .int _ | .uint _ | .angle _ | .bit _ => true
  | _ => false

def text : ScalarType → String
  | .bool => "bool"
  | .int w => s!"int[{w}]"
  | .uint w => s!"uint[{w}]"
  | .float w => s!"float[{w}]"
  | .angle w => s!"angle[{w}]"
  | .bit w => s!"bit[{w}]"
  | .complex w => s!"complex[float[{w}]]"
  | .duration => "duration"
  | .stretch => "stretch"

end ScalarType

end QasmValues
