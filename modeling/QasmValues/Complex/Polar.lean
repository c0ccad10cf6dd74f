import QasmValues.Complex

/-! Functions of complex numbers by their polar form.
A number is `r · (cos t + i sin t)` for its norm `r` and argument `t`. Where that form
loses a sign or meets an infinity the cases are set apart. -/

namespace QasmValues.Complex

def ofPolar (norm argument : Float) : Complex :=
  ⟨norm * argument.cos, norm * argument.sin⟩

def signed (x : Float) : Bool := twoPow 63 ≤ x.toBits.toNat

def withSign (x sign : Float) : Float :=
  if signed sign then -x.abs else x.abs

def norm (z : Complex) : Float :=
  if z.re.isInf || z.im.isInf then 1.0 / 0.0
  else
    let larger := max z.re.abs z.im.abs
    let smaller := min z.re.abs z.im.abs
    if z.re.isNaN || z.im.isNaN then 0.0 / 0.0
    else if larger == 0 then larger
    else if smaller == 0 then larger
    else if 1e150 < larger || smaller < 1e-150 then
      let ratio := smaller / larger
      larger * (1 + ratio * ratio).sqrt
    else (larger * larger + smaller * smaller).sqrt

def argument (z : Complex) : Float := Float.atan2 z.im z.re

def mul (z w : Complex) : Complex :=
  ⟨z.re * w.re - z.im * w.im, z.re * w.im + z.im * w.re⟩

def log (z : Complex) : Complex := ⟨z.norm.log, z.argument⟩

def exp (z : Complex) : Complex :=
  if z.re.isInf && z.re < 0 && !z.im.isFinite then ⟨0, 0⟩
  else if z.re.isInf && 0 < z.re && (z.im == 0 || !z.im.isFinite) then
    ⟨z.re, if z.im.isInf then 0.0 / 0.0 else z.im⟩
  else if z.re.isNaN && z.im == 0 then z
  else ofPolar z.re.exp z.im

def sqrt (z : Complex) : Complex :=
  if z.im == 0 then
    if signed z.re then ⟨0, withSign (-z.re).sqrt z.im⟩ else ⟨z.re.sqrt, z.im⟩
  else if z.re == 0 then
    let x := (z.im.abs / 2).sqrt
    ⟨x, withSign x z.im⟩
  else ofPolar z.norm.sqrt (z.argument / 2)

def pow (z w : Complex) : Complex :=
  if w.re == 0 && w.im == 0 then ⟨1, 0⟩ else (w.mul z.log).exp

def Functions.polar : Functions := ⟨Complex.exp, Complex.sqrt, Complex.pow⟩

end QasmValues.Complex
