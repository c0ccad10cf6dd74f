/-! The constants that every program may name. -/

namespace QasmValues

inductive Constant where
  | pi
  | tau
  | euler
  deriving DecidableEq, Repr

namespace Constant

def ofName? : String → Option Constant
  | "pi" | "π" => some .pi
  | "tau" | "τ" => some .tau
  | "euler" | "ℇ" => some .euler
  | _ => none

def value : Constant → Float
  | .pi => 3.141592653589793
  | .tau => 6.283185307179586
  | .euler => 2.718281828459045

end Constant

def isConstant (name : String) : Bool := (Constant.ofName? name).isSome

end QasmValues
