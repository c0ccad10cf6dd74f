import QasmValues.Binary

/-! Decimal texts of binary numbers.
`shortest` writes the fewest significant digits that round back to the float,
the nearest such digits and the larger of two equally near; `scientific` writes
a fixed count of digits, rounded from the exact value with ties to even.
Positional notation is always used for the shortest text: no exponent, no
fraction on an integral value, and a sign also on a negative zero. -/

namespace QasmValues

/-- The number `digits · 10 ^ exponent`. -/
structure Decimal where
  digits : Nat
  exponent : Int
  deriving DecidableEq, Repr

structure Ratio where
  num : Nat
  den : Nat

namespace Ratio

def scale (x : Ratio) (base : Nat) (exponent : Int) : Ratio :=
  if 0 ≤ exponent then ⟨x.num * base.pow exponent.toNat, x.den⟩
  else ⟨x.num, x.den * base.pow (-exponent).toNat⟩

def magnitude (x : Ratio) : Int :=
  let estimate : Int := (Nat.toDigits 10 x.num).length - (Nat.toDigits 10 x.den).length
  let scaled := x.scale 10 (-estimate)
  if scaled.den ≤ scaled.num then estimate else estimate - 1

end Ratio

namespace Decimal

def trim : Nat → Decimal → Decimal
  | 0, x => x
  | fuel + 1, x =>
    if x.digits ≠ 0 ∧ x.digits % 10 = 0 then trim fuel ⟨x.digits / 10, x.exponent + 1⟩ else x

def text (x : Decimal) : String :=
  if x.digits = 0 then "0"
  else
    let digits := Nat.toDigits 10 x.digits
    let places := (-x.exponent).toNat
    if 0 ≤ x.exponent then String.ofList (digits ++ List.replicate x.exponent.toNat '0')
    else if digits.length ≤ places then
      "0." ++ String.ofList (List.replicate (places - digits.length) '0' ++ digits)
    else
      let whole := digits.length - places
      String.ofList (digits.take whole) ++ "." ++ String.ofList (digits.drop whole)

def exact (significand : Nat) (exponent : Int) : Ratio :=
  Ratio.scale ⟨significand, 1⟩ 2 exponent

/-- The numbers that round to a float, in quarters of its last place: from
`low` to `high`, the ends included for an even significand. A power of two has
a closer neighbour below. -/
structure Interval where
  value : Nat
  low : Nat
  high : Nat
  closed : Bool
  exponent : Int

def Interval.ofBinary (x : Binary) : Interval :=
  let value := 4 * x.significand
  let below := if x.significand = twoPow 52 ∧ -1074 < x.exponent then 1 else 2
  ⟨value, value - below, value + 2, x.significand % 2 = 0, x.exponent - 2⟩

/-- The digits on the grid `10 ^ place` that lie in the interval, the nearer if
both neighbours of the value do and the larger if they are equally near. -/
def Interval.onGrid? (i : Interval) (place : Int) : Option Nat :=
  let unit := Ratio.scale (Ratio.scale ⟨1, 1⟩ 2 i.exponent) 10 (-place)
  let contains (digits : Nat) : Bool :=
    let point := digits * unit.den
    if i.closed then i.low * unit.num ≤ point ∧ point ≤ i.high * unit.num
    else i.low * unit.num < point ∧ point < i.high * unit.num
  let value := i.value * unit.num
  let below := value / unit.den
  match contains below, contains (below + 1) with
  | true, true => some (if 2 * (value % unit.den) < unit.den then below else below + 1)
  | true, false => some below
  | false, true => some (below + 1)
  | false, false => none

def Interval.search (i : Interval) : Nat → Int → Decimal
  | 0, _ => ⟨0, 0⟩
  | fuel + 1, place =>
    match i.onGrid? place with
    | some digits => ⟨digits, place⟩
    | none => search i fuel (place - 1)

/-- The fewest digits that round back to a float with this value. Seventeen
always do. -/
def shortest (x : Binary) : Decimal :=
  if x.significand = 0 then ⟨0, 0⟩
  else
    let place := (exact x.significand x.exponent).magnitude
    trim 17 ((Interval.ofBinary x).search 17 place)

def rounded (count : Nat) (x : Binary) : Decimal :=
  let value := exact x.significand x.exponent
  let place := value.magnitude + 1 - count
  let scaled := value.scale 10 (-place)
  let digits := roundDiv scaled.num scaled.den
  if digits = Nat.pow 10 count then ⟨digits / 10, place + 1⟩ else ⟨digits, place⟩

end Decimal

def floatText (x : Float) : String :=
  match Binary.ofFloat? x with
  | some y => (if y.negative then "-" else "") ++ (Decimal.shortest y).text
  | none => if x.isNaN then "NaN" else if x < 0 then "-inf" else "inf"

/-- The text of a float with `count` significant digits, one of them before the
point, and an exponent of ten. Zeros, infinities and NaN have short texts. -/
def floatScientific (count : Nat) (x : Float) : String :=
  match Binary.ofFloat? x with
  | some y =>
    let sign := if y.negative then "-" else ""
    if y.significand = 0 then sign ++ "0"
    else
      let r := Decimal.rounded count y
      let digits := Nat.toDigits 10 r.digits
      sign ++ String.ofList (digits.take 1) ++ "." ++ String.ofList (digits.drop 1) ++ "e"
        ++ toString (r.exponent + count - 1)
  | none => if x.isNaN then "nan" else if x < 0 then "-inf" else "inf"

end QasmValues
