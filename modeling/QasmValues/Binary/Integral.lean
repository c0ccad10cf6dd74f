import QasmValues.Binary

/-! Integral parts and remainders of floats, computed exactly.
An integral part keeps the sign of its argument, also when it is zero. -/

namespace QasmValues

namespace Binary

inductive Direction where
  | towardZero
  | down
  | up
  | nearest
  deriving DecidableEq, Repr

def Direction.quotient (d : Direction) (negative : Bool) (n unit : Nat) : Nat :=
  match d, negative with
  | .towardZero, _ | .down, false | .up, true => n / unit
  | .down, true | .up, false => ceilDiv n unit
  | .nearest, _ => roundDiv n unit

def integral (d : Direction) (x : Binary) : Binary :=
  if 0 ≤ x.exponent then x
  else ⟨x.negative, d.quotient x.negative x.significand (twoPow (-x.exponent).toNat), 0⟩

def toInt (x : Binary) : Int :=
  let magnitude : Int := x.significand <<< x.exponent.toNat
  if x.negative then -magnitude else magnitude

def truncate (x : Binary) : Int := (x.integral .towardZero).toInt

/-- The remainder of the truncated quotient `x / y`, with the sign of `x`. -/
def rem (x y : Binary) : Binary :=
  let exponent := min x.exponent y.exponent
  let scaled (z : Binary) : Nat := z.significand <<< (z.exponent - exponent).toNat
  ⟨x.negative, scaled x % scaled y, exponent⟩

end Binary

def floatIntegral (d : Binary.Direction) (x : Float) : Float :=
  Binary.onFinite (fun y => (y.integral d).toFloat) x

def nearestInt (x : Float) : Int :=
  match Binary.ofFloat? x with
  | some y => (y.integral .nearest).toInt
  | none => 0

/-- The remainder of `x / y` with the sign of `x`; NaN if `x` is not finite or
`y` is zero, and `x` itself if `y` is infinite. -/
def floatRem (x y : Float) : Float :=
  match Binary.ofFloat? x, Binary.ofFloat? y with
  | some a, some b => if b.significand = 0 then 0.0 / 0.0 else (a.rem b).toFloat
  | some _, none => if y.isNaN then y else x
  | none, _ => 0.0 / 0.0

end QasmValues
