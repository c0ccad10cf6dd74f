import QasmValues.TwoPow

/-! Exact binary numbers `± significand · 2 ^ exponent` and their rounding to a
floating format. Every finite `Float` is one; rounding is to nearest with ties
to the even significand, and is the only place where a value is lost. -/

namespace QasmValues

/-- The quotient `n / d` rounded to the nearest integer, ties to the even one. -/
def roundDiv (n d : Nat) : Nat :=
  if 2 * (n % d) < d ∨ (2 * (n % d) = d ∧ n / d % 2 = 0) then n / d else n / d + 1

def ceilDiv (n d : Nat) : Nat :=
  if n % d = 0 then n / d else n / d + 1

theorem roundDiv_of_dvd {n d : Nat} (positive : 0 < d) (h : d ∣ n) : roundDiv n d = n / d := by
  have hr : n % d = 0 := Nat.mod_eq_zero_of_dvd h
  simp [roundDiv, hr, positive]

theorem roundDiv_le (n d : Nat) : roundDiv n d ≤ n / d + 1 := by
  unfold roundDiv
  split <;> omega

theorem le_roundDiv (n d : Nat) : n / d ≤ roundDiv n d := by
  unfold roundDiv
  split <;> omega

def bitLength (n : Nat) : Nat :=
  if n = 0 then 0 else n.log2 + 1

/-- The number `± significand · 2 ^ exponent`. -/
structure Binary where
  negative : Bool
  significand : Nat
  exponent : Int
  deriving DecidableEq, Repr

namespace Binary

/-- A format keeps `precision` significant bits above the least exponent, and
its finite values lie below `2 ^ limit`. -/
structure Format where
  precision : Nat
  least : Int
  limit : Int

def Format.double : Format := ⟨53, -1074, 1024⟩

def Format.single : Format := ⟨24, -149, 128⟩

def size (x : Binary) : Nat := bitLength x.significand

/-- The nearest number that the format can hold, were its exponents unbounded above. -/
def round (f : Format) (x : Binary) : Binary :=
  let excess := max ((x.size : Int) - f.precision) (f.least - x.exponent)
  if excess ≤ 0 then x
  else ⟨x.negative, roundDiv x.significand (twoPow excess.toNat), x.exponent + excess⟩

def overflows (f : Format) (x : Binary) : Bool :=
  x.significand ≠ 0 && f.limit < x.size + x.exponent

def ofFloat? (x : Float) : Option Binary :=
  let bits := x.toBits.toNat
  let exponent : Nat := bits / twoPow 52 % 2048
  let fraction : Nat := bits % twoPow 52
  let negative := decide (twoPow 63 ≤ bits)
  if exponent = 2047 then none
  else if exponent = 0 then some ⟨negative, fraction, -1074⟩
  else some ⟨negative, twoPow 52 + fraction, (exponent : Int) - 1075⟩

def ofInt (n : Int) : Binary := ⟨decide (n < 0), n.natAbs, 0⟩

/-- The bits of a float without its sign, for a number that binary64 holds:
the significand is brought to 53 bits as far as the least exponent allows. -/
def magnitudeBits (x : Binary) : Nat :=
  if x.significand = 0 then 0
  else
    let shift := min (53 - (x.size : Int)) (x.exponent + 1074)
    let significand :=
      if 0 ≤ shift then x.significand <<< shift.toNat else x.significand >>> (-shift).toNat
    (x.exponent - shift + 1074).toNat * twoPow 52 + significand

def infinityBits : Nat := 2047 * twoPow 52

/-- The nearest float, an infinity if the number is too large. -/
def toFloat (x : Binary) : Float :=
  let y := x.round .double
  let magnitude := if y.overflows .double then infinityBits else y.magnitudeBits
  Float.ofBits (UInt64.ofNat (magnitude + if x.negative then twoPow 63 else 0))

def narrow (f : Format) (x : Binary) : Float :=
  let y := x.round f
  if y.overflows f then
    Float.ofBits (UInt64.ofNat (infinityBits + if x.negative then twoPow 63 else 0))
  else y.toFloat

def onFinite (f : Binary → Float) (x : Float) : Float :=
  match ofFloat? x with
  | some y => f y
  | none => x

@[simp] theorem round_negative (f : Format) (x : Binary) :
    (x.round f).negative = x.negative := by
  simp only [round]
  split <;> rfl

end Binary

def floatOfInt (n : Int) : Float := (Binary.ofInt n).toFloat

def floatOfWidth (width : Nat) (x : Float) : Float :=
  if width = 32 then Binary.onFinite (Binary.narrow .single) x else x

end QasmValues
