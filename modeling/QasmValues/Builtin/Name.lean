/-! The built-in functions and their names. -/

namespace QasmValues

inductive Builtin where
  | arccos
  | arcsin
  | arctan
  | ceiling
  | cos
  | exp
  | floor
  | log
  | mod
  | popcount
  | pow
  | rotl
  | rotr
  | sin
  | sqrt
  | tan
  deriving DecidableEq, Repr, Inhabited

namespace Builtin

def all : List Builtin :=
  [.arccos, .arcsin, .arctan, .ceiling, .cos, .exp, .floor, .log, .mod, .popcount,
    .pow, .rotl, .rotr, .sin, .sqrt, .tan]

def name : Builtin → String
  | .arccos => "arccos"
  | .arcsin => "arcsin"
  | .arctan => "arctan"
  | .ceiling => "ceiling"
  | .cos => "cos"
  | .exp => "exp"
  | .floor => "floor"
  | .log => "log"
  | .mod => "mod"
  | .popcount => "popcount"
  | .pow => "pow"
  | .rotl => "rotl"
  | .rotr => "rotr"
  | .sin => "sin"
  | .sqrt => "sqrt"
  | .tan => "tan"

def ofName? (name : String) : Option Builtin :=
  all.find? (·.name = name)

def arity : Builtin → Nat
  | .mod | .pow | .rotl | .rotr => 2
  | _ => 1

theorem mem_all (f : Builtin) : f ∈ all := by
  cases f <;> decide

end Builtin

end QasmValues
