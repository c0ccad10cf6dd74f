import QasmValues.Binary.Integral

/-! Complex numbers of two floats.
What the functions of complex numbers compute is left to an implementation of them,
and only the width of their values is settled here. -/

namespace QasmValues

structure Complex where
  re : Float
  im : Float
  deriving DecidableEq, Repr

namespace Complex

/-- An implementation of the functions of complex numbers. -/
structure Functions where
  exp : Complex → Complex
  sqrt : Complex → Complex
  pow : Complex → Complex → Complex

def ofWidth (width : Nat) (z : Complex) : Complex :=
  ⟨floatOfWidth width z.re, floatOfWidth width z.im⟩

end Complex

end QasmValues
