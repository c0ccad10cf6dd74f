import QasmValues.Scalar

/-! Explicit casts between scalar types.
`Castable` is the table of legal pairs and `cast` converts along them. Integers
wrap modulo a power of two; a float is truncated toward zero and clamped to a
word before it wraps, NaN being zero; bits keep their places. A type casts to
itself, and nothing else leads to or from complex numbers and durations. -/

namespace QasmValues

/-- Bits are reinterpreted at one width only. -/
def sameWidth (expected got : Nat) : Except Fault Unit :=
  if expected = got then .ok () else .error (.widthMismatch expected got)

namespace ScalarType

def checkCast (source target : ScalarType) : Except Fault Unit :=
  if source = target then .ok ()
  else match source, target with
    | .bool, .int _ | .bool, .uint _ | .bool, .float _ => .ok ()
    | .bool, .bit n => sameWidth n 1
    | .int _, .bool | .int _, .int _ | .int _, .uint _ | .int _, .float _ => .ok ()
    | .int w, .bit n => sameWidth n w
    | .uint _, .bool | .uint _, .int _ | .uint _, .uint _ | .uint _, .float _ => .ok ()
    | .uint w, .bit n => sameWidth n w
    | .float _, .bool | .float _, .int _ | .float _, .uint _ | .float _, .angle _ => .ok ()
    | .angle _, .bool => .ok ()
    | .angle w, .bit n => sameWidth n w
    | .bit _, .bool => .ok ()
    | .bit w, .int n | .bit w, .uint n | .bit w, .angle n => sameWidth n w
    | _, _ => .error (.illegalCast source target)

def canCast (source target : ScalarType) : Bool :=
  (source.checkCast target).isOk

end ScalarType

namespace Scalar

def convert (v : Scalar) (target : ScalarType) : Except Fault Scalar :=
  match v, target with
  | .bool b, .int w => .ok (.int (if b then 1 else 0) w)
  | .bool b, .uint w => .ok (.uint (if b then 1 else 0) w)
  | .bool b, .float w => .ok (.float (if b then 1 else 0) w)
  | .bool b, .bit _ => .ok (.bit ⟨[b]⟩)
  | .int n _, .bool => .ok (.bool (n ≠ 0))
  | .int n _, .int w => .ok (.int (wrapInt w n.toInt) w)
  | .int n _, .uint w => .ok (.uint (wrapUInt w n.toInt) w)
  | .int n _, .float w => .ok (.float (floatOfWidth w (floatOfInt n.toInt)) w)
  | .uint n _, .bool => .ok (.bool (n ≠ 0))
  | .uint n _, .int w => .ok (.int (wrapInt w n.toNat) w)
  | .uint n _, .uint w => .ok (.uint (wrapUInt w n.toNat) w)
  | .uint n _, .float w => .ok (.float (floatOfWidth w (floatOfInt n.toNat)) w)
  | .float x _, .bool => .ok (.bool (x != 0))
  | .float x _, .int w => .ok (.int (wrapInt w (wordOfFloat x)) w)
  | .float x _, .uint w => .ok (.uint (wrapUInt w (wordOfFloat x)) w)
  | .float x _, .angle w => ofRadians x w
  | .angle a, .bool => .ok (.bool (a.raw ≠ 0))
  | .bit b, .bool => .ok (.bool b.any)
  | .bit b, .int w => .ok (.int (wrapInt w b.toWord.toNat) w)
  | .bit b, .uint w => .ok (.uint b.toWord w)
  | .bit b, .angle _ => do pure (.angle (← Angle.ofBits b))
  | v, .bit n =>
    match v.bits with
    | .ok b => .ok (.bit b)
    | .error _ => .error (.illegalCast v.type (.bit n))
  | v, target => .error (.illegalCast v.type target)

def cast (v : Scalar) (target : ScalarType) : Except Fault Scalar := do
  target.validate
  v.type.checkCast target
  if v.type = target then pure v else v.convert target

end Scalar

end QasmValues
