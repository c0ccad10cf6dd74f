import QasmValues.Scalar

/-! Literals, and how each becomes a value of its declared type.
Nothing is converted that would lose an integer: an integer literal fits its
type or is refused. -/

namespace QasmValues

inductive Literal where
  | bool (value : Bool)
  | integer (value : Int)
  | float (value : Float)
  | bitString (text : String)
  | duration (value : Duration)
  | complex (value : Complex)
  deriving DecidableEq, Repr

namespace Literal

def kind : Literal → LiteralKind
  | .bool _ => .bool
  | .integer _ => .integer
  | .float _ => .float
  | .bitString _ => .bitString
  | .duration _ => .duration
  | .complex _ => .complex

/-- The value of the declared type that a literal stands for. -/
def bind (l : Literal) (type : ScalarType) : Except Fault Scalar := do
  type.validate
  match l, type with
  | .bool b, .bool => pure (.bool b)
  | .integer n, .int w =>
    if w < signedWidth n then .error (.widthMismatch w (signedWidth n))
    else pure (.int (Int64.ofInt n) w)
  | .integer n, .uint w =>
    if n < 0 then .error (.widthMismatch w (signedWidth n))
    else if w < unsignedWidth n.toNat then .error (.widthMismatch w (unsignedWidth n.toNat))
    else pure (.uint (UInt64.ofNat n.toNat) w)
  | .integer n, .float w => Scalar.ofFloat (floatOfInt n) w
  | .float x, .float w => Scalar.ofFloat x w
  | .integer n, .angle w => Scalar.ofRadians (floatOfInt n) w
  | .float x, .angle w => Scalar.ofRadians x w
  | .integer n, .complex w => pure (.complex ⟨floatOfWidth w (floatOfInt n), 0⟩ w)
  | .float x, .complex w => pure (.complex ⟨floatOfWidth w x, 0⟩ w)
  | .complex z, .complex w => pure (.complex (z.ofWidth w) w)
  | .bitString s, .bit w => do pure (.bit (← Bits.parse s w))
  | .duration d, .duration => pure (.duration d)
  | _, _ => .error (.illegalLiteral l.kind type)

end Literal

end QasmValues
