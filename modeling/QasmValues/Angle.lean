import QasmValues.Bits
import QasmValues.Constant
import QasmValues.Word

/-! Fixed-point angles.
An `angle[n]` is a whole number of `2 ^ n`-th parts of a turn, less than a
turn. A real angle is first reduced to one turn and then rounded to the nearest
part, ties to even; what rounds up to a full turn is zero. -/

namespace QasmValues

/-- A number of `2 ^ width`-th parts of a turn. -/
structure Angle where
  raw : UInt64
  width : Nat
  deriving DecidableEq, Repr

/-- What becomes of the bits that a narrower angle has no room for. -/
inductive Narrowing where
  | round
  | truncate
  deriving DecidableEq, Repr

namespace Angle

def turn : Float := Constant.tau.value

def parts (width : Nat) : Float := (⟨false, 1, width⟩ : Binary).toFloat

def ofRaw (raw : UInt64) (width : Nat) : Except Fault Angle := do
  (ScalarType.angle width).validate
  if raw.toNat < twoPow width then pure ⟨raw, width⟩
  else .error (.widthMismatch width (bitLength raw.toNat))

/-- The angle within one turn. A tiny negative angle is a whole turn after
rounding, and so is zero. -/
def reduce (radians : Float) : Float :=
  let remainder := floatRem radians turn
  let reduced := if remainder < 0 then remainder + turn else remainder
  if turn ≤ reduced then 0 else reduced

def ofRadians (radians : Float) (width : Nat) : Except Fault Angle := do
  (ScalarType.angle width).validate
  if radians.isFinite then
    let nearest := (nearestInt (reduce radians / turn * parts width)).toNat
    pure ⟨if nearest < twoPow width then UInt64.ofNat nearest else 0, width⟩
  else .error (.nonFiniteAngle radians)

/-- The angle in radians, computed in floats: a number of parts that needs more than
53 bits is rounded first. -/
def toRadians (a : Angle) : Float :=
  floatOfInt a.raw.toNat / parts a.width * turn

/-- A word of so many bits without the lowest, which may carry into the others. -/
def narrow (raw : UInt64) (shift width : Nat) : Narrowing → UInt64
  | .truncate => raw >>> UInt64.ofNat shift
  | .round =>
    let kept := raw >>> UInt64.ofNat shift
    let dropped := raw &&& widthMask shift
    let half := 1 <<< UInt64.ofNat (shift - 1)
    if half < dropped ∨ (dropped = half ∧ kept &&& 1 = 1) then (kept + 1) &&& widthMask width
    else kept

def wordAt (a : Angle) (width : Nat) (narrowing : Narrowing) : UInt64 :=
  if a.width ≤ width then a.raw <<< UInt64.ofNat (width - a.width)
  else narrow a.raw (a.width - width) width narrowing

/-- The angle at another width. A wider one has zeros below its old bits; a
narrower one drops bits by truncation, or rounds to nearest with ties to even,
a full turn being zero. -/
def resize (a : Angle) (width : Nat) (narrowing : Narrowing) : Except Fault Angle := do
  (ScalarType.angle width).validate
  pure ⟨a.wordAt width narrowing, width⟩

def toBits (a : Angle) : Bits := .ofNat a.raw.toNat a.width

/-- The angle whose number of parts has these bits, as wide as they are many. -/
def ofBits (b : Bits) : Except Fault Angle :=
  if b.length ≤ maxWidth then do
    (ScalarType.angle b.length).validate
    pure ⟨b.toWord, b.length⟩
  else .error (.invalidWidth .angle maxWidth)

@[simp] theorem length_toBits (a : Angle) : a.toBits.length = a.width := Bits.length_ofNat ..

end Angle

end QasmValues
