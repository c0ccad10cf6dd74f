import QasmValues.ArrayType
import QasmValues.Builtin.Name
import QasmValues.Decimal
import QasmValues.Duration.Unit

/-! Why an operation on classical values fails, and the message for it.
A fault keeps its cause as data; `message` alone holds the wording. -/

namespace QasmValues

inductive LiteralKind where
  | bool
  | integer
  | float
  | bitString
  | duration
  | complex
  deriving DecidableEq, Repr

def LiteralKind.text : LiteralKind → String
  | .bool => "bool literal"
  | .integer => "integer literal"
  | .float => "float literal"
  | .bitString => "bit string literal"
  | .duration => "duration literal"
  | .complex => "complex literal"

inductive BindingKind where
  | scalar
  | array
  | qubits
  | bits
  | alias
  deriving DecidableEq, Repr

def BindingKind.text : BindingKind → String
  | .scalar => "scalar"
  | .array => "array"
  | .qubits => "qubit register"
  | .bits => "bit register"
  | .alias => "alias"

inductive Fault where
  | illegalCast (source target : ScalarType)
  | illegalLiteral (source : LiteralKind) (target : ScalarType)
  | widthMismatch (expected got : Nat)
  /-- The parts of a complex number are not floats of one type. -/
  | componentMismatch (real imaginary : ScalarType)
  | indexOutOfRange (index : Int) (length : Nat)
  | emptyIndexSet
  | zeroStep
  /-- A register is joined to storage that it already refers to. -/
  | selfConcatenation
  | shapeMismatch (expected got : ArrayType)
  | elementCount (expected : ArrayType) (got : Nat)
  | excessIndices (dimensions got : Nat)
  /-- The bits of an element are indexed by other than one index. -/
  | bitIndexCount (got : Nat)
  | bindingMismatch (expected got : BindingKind)
  | lengthMismatch (expected got : Nat)
  | invalidWidth (family : Family) (width : Nat)
  | dimensionCount (got : Nat)
  | nonFiniteAngle (radians : Float)
  | durationUnits (left right : TimeUnit)
  | divisionByZero
  | notBitIndexable (type : ArrayType)
  | bindingNotBitIndexable (kind : BindingKind)
  | badBit (character : Char)
  | arity (function : Builtin) (got : Nat)
  | noOverload (function : Builtin) (arguments : List ScalarType)
  | undefined (name : String)
  | redeclared (name : String)
  | notGlobal (name : String)
  deriving DecidableEq, Repr

namespace Fault

private def shapes (expected got : String) : String :=
  s!"Shape mismatch: expected {expected}, got {got}"

private def arguments (function reason : String) : String :=
  s!"Invalid arguments to '{function}': {reason}"

private def bitLevel (subject : String) : String :=
  s!"Values of type {subject} cannot be indexed at the bit level"

def message : Fault → String
  | illegalCast source target =>
    "Illegal cast from " ++ source.text ++ " to " ++ target.text
  | illegalLiteral source target =>
    "Illegal cast from " ++ source.text ++ " to " ++ target.text
  | widthMismatch expected got =>
    s!"Width mismatch: expected {expected} bits, got {got}"
  | componentMismatch real imaginary =>
    "Complex components must share a float type, got " ++ real.text ++ " and " ++ imaginary.text
  | indexOutOfRange index length =>
    s!"Index {index} out of range for length {length}"
  | emptyIndexSet => "Index set resolves to no positions"
  | zeroStep => "Range step must be non-zero"
  | selfConcatenation => "Concatenation refers to the same storage more than once"
  | shapeMismatch expected got => shapes expected.text got.text
  | elementCount expected got => shapes expected.text s!"{got} elements"
  | excessIndices dimensions got => shapes s!"at most {dimensions} indices" s!"{got} indices"
  | bitIndexCount got => shapes "one bit index" s!"{got} indices"
  | bindingMismatch expected got => shapes expected.text got.text
  | lengthMismatch expected got =>
    s!"Length mismatch: expected {expected} bits, got {got}"
  | invalidWidth family width =>
    s!"Invalid width {width} for " ++ family.text
  | dimensionCount got => s!"Arrays support at most {maxDimensions} dimensions, got {got}"
  | nonFiniteAngle radians =>
    "Cannot represent non-finite value " ++ floatText radians ++ " as an angle"
  | durationUnits left right =>
    "Cannot combine durations in '" ++ left.suffix ++ "' and '" ++ right.suffix ++ "'"
  | divisionByZero => "Division by zero"
  | notBitIndexable type => bitLevel type.text
  | bindingNotBitIndexable kind => bitLevel kind.text
  | badBit character => arguments "bit string" s!"unexpected character '{character}'"
  | arity function got =>
    arguments function.name s!"expected {function.arity} arguments, got {got}"
  | noOverload function types =>
    arguments function.name
      ("no overload for (" ++ ", ".intercalate (types.map ScalarType.text) ++ ")")
  | undefined name => s!"Undefined identifier: {name}"
  | redeclared name => s!"Redeclaration of '{name}'"
  | notGlobal name => s!"'{name}' must be declared in the global scope"

end Fault

def ScalarType.validate (t : ScalarType) : Except Fault Unit :=
  if t.Valid then .ok ()
  else match t.sized with
    | some (family, width) => .error (.invalidWidth family width)
    | none => .ok ()

theorem ScalarType.validate_eq_ok_iff (t : ScalarType) : t.validate = .ok () ↔ t.Valid := by
  by_cases h : t.Valid
  · simp [validate, h]
  · rw [validate, if_neg h]
    cases t <;> simp_all [sized, Valid]

def ArrayType.make (element : ScalarType) (shape : List Nat) : Except Fault ArrayType := do
  element.validate
  if shape.isEmpty || maxDimensions < shape.length then .error (.dimensionCount shape.length)
  else pure ⟨element, shape⟩

end QasmValues
