/-! Units of time.
The seconds of the units are exact powers of ten as decimals; `dt`, the sample
time of a backend, has no fixed length. -/

namespace QasmValues

inductive TimeUnit where
  | dt
  | ns
  | us
  | ms
  | s
  deriving DecidableEq, Repr, Inhabited

namespace TimeUnit

def suffix : TimeUnit → String
  | .dt => "dt"
  | .ns => "ns"
  | .us => "us"
  | .ms => "ms"
  | .s => "s"

/-- Microseconds may also be written with the micro sign or the Greek letter mu. -/
def ofSuffix? : String → Option TimeUnit
  | "dt" => some .dt
  | "ns" => some .ns
  | "us" | "\u00b5s" | "\u03bcs" => some .us
  | "ms" => some .ms
  | "s" => some .s
  | _ => none

def seconds : TimeUnit → Option Float
  | .dt => none
  | .ns => some 1e-9
  | .us => some 1e-6
  | .ms => some 1e-3
  | .s => some 1.0

end TimeUnit

end QasmValues
