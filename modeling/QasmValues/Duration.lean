import QasmValues.Fault

/-! Durations and their arithmetic.
A sum is in the unit of its left operand. Durations in `dt` and in seconds do
not mix, and only the quotient of two durations is a plain float. -/

namespace QasmValues

structure Duration where
  magnitude : Float
  unit : TimeUnit
  deriving DecidableEq, Repr

namespace Duration

/-- The length in seconds, unless the unit has none. -/
def seconds (d : Duration) : Option Float :=
  d.unit.seconds.map (d.magnitude * ·)

def magnitudeIn (d : Duration) (unit : TimeUnit) : Except Fault Float :=
  if unit = d.unit then .ok d.magnitude
  else match unit.seconds, d.unit.seconds with
    | some target, some source => .ok (d.magnitude * source / target)
    | _, _ => .error (.durationUnits unit d.unit)

def add (a b : Duration) : Except Fault Duration := do
  pure ⟨a.magnitude + (← b.magnitudeIn a.unit), a.unit⟩

def sub (a b : Duration) : Except Fault Duration := do
  pure ⟨a.magnitude - (← b.magnitudeIn a.unit), a.unit⟩

def scale (d : Duration) (factor : Float) : Duration := ⟨d.magnitude * factor, d.unit⟩

def ratio (a b : Duration) : Except Fault Float := do
  let denominator ← b.magnitudeIn a.unit
  if denominator == 0 then .error .divisionByZero else pure (a.magnitude / denominator)

def text (d : Duration) : String := floatText d.magnitude ++ d.unit.suffix

end Duration

end QasmValues
