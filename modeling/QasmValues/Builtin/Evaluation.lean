import QasmValues.Builtin.Signature
import QasmValues.Scalar

/-! The values of the built-in functions.
Those of complex numbers are given by an implementation. A remainder has the sign of its
dividend. An integer power wraps at its width, and an exponent that needs more than 32 bits
counts as the largest that does not. A rotation takes its distance as a signed 64-bit word. -/

namespace QasmValues

namespace Builtin

def maxExponent : Nat := twoPow 32 - 1

def real? : Builtin → Option (Float → Float)
  | .arccos => some Float.acos
  | .arcsin => some Float.asin
  | .arctan => some Float.atan
  | .ceiling => some (floatIntegral .up)
  | .floor => some (floatIntegral .down)
  | .cos => some Float.cos
  | .sin => some Float.sin
  | .tan => some Float.tan
  | .exp => some Float.exp
  | .log => some Float.log
  | .sqrt => some Float.sqrt
  | .mod | .popcount | .pow | .rotl | .rotr => none

/-- The signed distance of a rotation; an unsigned word is read as a signed one. -/
def distance? : Scalar → Option Int64
  | .int n _ => some n
  | .uint n _ => some n.toInt64
  | _ => none

def rotated? (rotate : Bits → Int64 → Bits) (target : Scalar) (distance : Int64) : Option Scalar :=
  match target with
  | .bit b => some (.bit (rotate b distance))
  | .uint n w => some (.uint (rotate (.ofNat n.toNat w) distance).toWord w)
  | _ => none

def evaluate (f : Builtin) (complex : Complex.Functions) (arguments : List Scalar)
    (type : ScalarType) : Except Fault Scalar :=
  let width := type.width.getD 64
  let reject := .error (.noOverload f (arguments.map Scalar.type))
  match f, arguments with
  | .exp, [.complex z _] => .ok (.complex ((complex.exp z).ofWidth width) width)
  | .sqrt, [.complex z _] => .ok (.complex ((complex.sqrt z).ofWidth width) width)
  | .pow, [.complex z _, .complex w _] =>
    .ok (.complex ((complex.pow z w).ofWidth width) width)
  | .pow, [.int n _, .uint e _] =>
    .ok (.int (wrapInt width (wordPow n 32 (min e.toNat maxExponent)).toInt) width)
  | .pow, [.float x _, .float y _] => Scalar.ofFloat (x.pow y) width
  | .mod, [.int n _, .int d _] =>
    if d = 0 then .error .divisionByZero else .ok (.int (n % d) width)
  | .mod, [.uint n _, .uint d _] =>
    if d = 0 then .error .divisionByZero else .ok (.uint (n % d) width)
  | .mod, [.float x _, .float y _] =>
    if y == 0 then .error .divisionByZero else Scalar.ofFloat (floatRem x y) width
  | .popcount, [.bit b] => .ok (.uint (UInt64.ofNat b.popcount) countWidth)
  | .rotl, [target, distance] =>
    match (distance? distance).bind (rotated? Bits.rotl target) with
    | some value => .ok value
    | none => reject
  | .rotr, [target, distance] =>
    match (distance? distance).bind (rotated? Bits.rotr target) with
    | some value => .ok value
    | none => reject
  | f, [x] =>
    match f.real?, x.toFloat? with
    | some g, some x => Scalar.ofFloat (g x) width
    | _, _ => reject
  | _, _ => reject

def call (f : Builtin) (complex : Complex.Functions) (arguments : List Scalar) :
    Except Fault Scalar := do
  f.evaluate complex arguments (← f.resultType (arguments.map Scalar.type))

theorem call_of_resultType_error {f : Builtin} {complex : Complex.Functions}
    {arguments : List Scalar} {fault : Fault}
    (h : f.resultType (arguments.map Scalar.type) = .error fault) :
    f.call complex arguments = .error fault := by
  rw [call, h]
  rfl

end Builtin

end QasmValues
