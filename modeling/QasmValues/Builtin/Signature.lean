import QasmValues.Fault

/-! The argument types that each built-in function takes, and its result type.
Trigonometric functions of an angle are in double precision; a function of two
numbers has the width of the wider. -/

namespace QasmValues

namespace Builtin

def countWidth : Nat := 64

/-- The type table, for the right number of arguments. -/
def overload? : Builtin → List ScalarType → Option ScalarType
  | .arccos, [.float w] | .arcsin, [.float w] | .arctan, [.float w] => some (.float w)
  | .ceiling, [.float w] | .floor, [.float w] | .log, [.float w] => some (.float w)
  | .cos, [.float w] | .sin, [.float w] | .tan, [.float w] => some (.float w)
  | .cos, [.angle _] | .sin, [.angle _] | .tan, [.angle _] => some (.float 64)
  | .exp, [.float w] | .sqrt, [.float w] => some (.float w)
  | .exp, [.complex w] | .sqrt, [.complex w] => some (.complex w)
  | .mod, [.int a, .int b] => some (.int (max a b))
  | .mod, [.uint a, .uint b] => some (.uint (max a b))
  | .mod, [.float a, .float b] | .pow, [.float a, .float b] => some (.float (max a b))
  | .popcount, [.bit _] => some (.uint countWidth)
  | .pow, [.int w, .uint _] => some (.int w)
  | .pow, [.complex a, .complex b] => some (.complex (max a b))
  | .rotl, [.bit w, .int _] | .rotl, [.bit w, .uint _] => some (.bit w)
  | .rotr, [.bit w, .int _] | .rotr, [.bit w, .uint _] => some (.bit w)
  | .rotl, [.uint w, .int _] | .rotl, [.uint w, .uint _] => some (.uint w)
  | .rotr, [.uint w, .int _] | .rotr, [.uint w, .uint _] => some (.uint w)
  | _, _ => none

def resultType (f : Builtin) (arguments : List ScalarType) : Except Fault ScalarType :=
  if arguments.length = f.arity then
    match f.overload? arguments with
    | some type => .ok type
    | none => .error (.noOverload f arguments)
  else .error (.arity f arguments.length)

theorem length_of_overload {f : Builtin} {arguments : List ScalarType} {type : ScalarType}
    (h : f.overload? arguments = some type) : arguments.length = f.arity := by
  unfold overload? at h
  split at h <;> first | rfl | cases h

end Builtin

end QasmValues
