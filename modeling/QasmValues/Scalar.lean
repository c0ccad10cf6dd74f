import QasmValues.Angle
import QasmValues.Complex
import QasmValues.Duration

/-! Scalar values.
A value carries its width beside a payload in machine form: a 64-bit word, a
float, a bit string. `Fits` says that the payload is one that the width has room
for; the checked constructors and every operation yield such values. -/

namespace QasmValues

inductive Scalar where
  | bool (value : Bool)
  /-- Two's complement, sign-extended to the word. -/
  | int (value : Int64) (width : Nat)
  | uint (value : UInt64) (width : Nat)
  /-- A binary32 value is held as the float equal to it. -/
  | float (value : Float) (width : Nat)
  | angle (value : Angle)
  | bit (value : Bits)
  | complex (value : Complex) (width : Nat)
  | duration (value : Duration)
  /-- A duration that a scheduler will choose. -/
  | stretch
  deriving DecidableEq, Repr

namespace Scalar

def type : Scalar → ScalarType
  | .bool _ => .bool
  | .int _ w => .int w
  | .uint _ w => .uint w
  | .float _ w => .float w
  | .angle a => .angle a.width
  | .bit b => .bit b.width
  | .complex _ w => .complex w
  | .duration _ => .duration
  | .stretch => .stretch

/-- The payload is one that the width has room for. -/
def Fits : Scalar → Prop
  | .int v w => (1 ≤ w ∧ w ≤ wordWidth) ∧ -twoPow (w - 1) ≤ v.toInt ∧ v.toInt < twoPow (w - 1)
  | .uint v w => (1 ≤ w ∧ w ≤ wordWidth) ∧ v.toNat < twoPow w
  | .float v w => (w = 32 ∨ w = 64) ∧ floatOfWidth w v = v
  | .angle a => (1 ≤ a.width ∧ a.width ≤ wordWidth) ∧ a.raw.toNat < twoPow a.width
  | .bit b => 1 ≤ b.length ∧ b.length ≤ maxWidth
  | .complex v w => (w = 32 ∨ w = 64) ∧ v.ofWidth w = v
  | .bool _ | .duration _ | .stretch => True

/-- A width can count the bits of a bit string. -/
def Sized : Scalar → Prop
  | .bit b => b.length ≤ maxWidth
  | _ => True

instance : DecidablePred Fits := fun v => by
  cases v <;> unfold Fits <;> infer_instance

def ofInt (value : Int64) (width : Nat) : Except Fault Scalar := do
  (ScalarType.int width).validate
  let needed := signedWidth value.toInt
  if width < needed then .error (.widthMismatch width needed) else pure (.int value width)

def ofUInt (value : UInt64) (width : Nat) : Except Fault Scalar := do
  (ScalarType.uint width).validate
  let needed := unsignedWidth value.toNat
  if width < needed then .error (.widthMismatch width needed) else pure (.uint value width)

def ofFloat (value : Float) (width : Nat) : Except Fault Scalar := do
  (ScalarType.float width).validate
  pure (.float (floatOfWidth width value) width)

def ofRadians (radians : Float) (width : Nat) : Except Fault Scalar := do
  pure (.angle (← Angle.ofRadians radians width))

def ofParts (re im : Scalar) : Except Fault Scalar :=
  match re, im with
  | .float x w, .float y v =>
    if w = v then .ok (.complex ⟨x, y⟩ w) else .error (.componentMismatch re.type im.type)
  | _, _ => .error (.componentMismatch re.type im.type)

/-- What an uninitialized variable of a type holds. -/
def zero (t : ScalarType) : Except Fault Scalar := do
  t.validate
  pure <| match t with
    | .bool => .bool false
    | .int w => .int 0 w
    | .uint w => .uint 0 w
    | .float w => .float 0 w
    | .angle w => .angle ⟨0, w⟩
    | .bit w => .bit (.zeros w)
    | .complex w => .complex ⟨0, 0⟩ w
    | .duration => .duration ⟨0, .ns⟩
    | .stretch => .stretch

/-- The bits of an integer, an angle or a bit string, least significant first. -/
def bits (v : Scalar) : Except Fault Bits :=
  match v with
  | .int n w => .ok (.ofNat n.toUInt64.toNat w)
  | .uint n w => .ok (.ofNat n.toNat w)
  | .angle a => .ok a.toBits
  | .bit b => .ok b
  | _ => .error (.notBitIndexable (.single v.type))

def withAllBits (v : Scalar) (b : Bits) : Except Fault Scalar :=
  match v with
  | .int _ w => .ok (.int (wrapInt w b.toWord.toNat) w)
  | .uint _ w => .ok (.uint (wrapUInt w b.toWord.toNat) w)
  | .angle _ => do pure (.angle (← Angle.ofBits b))
  | .bit _ => .ok (.bit b)
  | _ => .error (.notBitIndexable (.single v.type))

def slice (v : Scalar) (spec : IndexSpec) : Except Fault Bits := do
  (← v.bits).slice spec

def setSlice (v : Scalar) (spec : IndexSpec) (value : Bits) : Except Fault Scalar := do
  let bits ← v.bits
  v.withAllBits (← bits.setSlice spec value)

def toFloat? : Scalar → Option Float
  | .int n _ => some (floatOfInt n.toInt)
  | .uint n _ => some (floatOfInt n.toNat)
  | .float x _ => some x
  | .angle a => some a.toRadians
  | _ => none

def text : Scalar → String
  | .bool b => if b then "true" else "false"
  | .int n _ => toString n.toInt
  | .uint n _ => toString n.toNat
  | .float x _ => floatText x
  | .angle a => floatText a.toRadians
  | .bit b => "\"" ++ b.text ++ "\""
  | .complex z _ => floatText z.re ++ " + " ++ floatText z.im ++ "im"
  | .duration d => d.text
  | .stretch => "stretch"

end Scalar

def Constant.scalar (c : Constant) : Scalar := .float c.value 64

end QasmValues
