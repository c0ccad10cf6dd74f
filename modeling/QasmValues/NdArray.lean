import QasmValues.NdArray.Selection
import QasmValues.Scalar

/-! Arrays of scalars.
An array holds its elements row by row. Reading a part copies it, and further
subscripts lead into the copy and at last into the bits of an element. -/

namespace QasmValues

/-- An array type and the elements, row by row. -/
structure NdArray where
  type : ArrayType
  elements : List Scalar
  deriving DecidableEq, Repr

inductive Indexed where
  /-- One element, every dimension having a single index. -/
  | scalar (value : Scalar)
  | array (value : NdArray)
  /-- Bits of an element, indexed past the dimensions. -/
  | bits (value : Bits)
  deriving DecidableEq, Repr

def Indexed.type : Indexed → ArrayType
  | .scalar v => .single v.type
  | .array a => a.type
  | .bits b => .single (.bit b.width)

/-- The type and shape in a message, where bits are counted in full. -/
def Indexed.described : Indexed → ArrayType
  | .scalar v => .single v.type
  | .array a => a.type
  | .bits b => .single (.bit b.length)

namespace NdArray

/-- An array has from one to `maxDimensions` dimensions, a valid element type and
as many elements of that type as its shape says. -/
structure WellFormed (a : NdArray) : Prop where
  element : a.type.element.Valid
  dimensions : 1 ≤ a.type.shape.length ∧ a.type.shape.length ≤ maxDimensions
  count : a.elements.length = a.type.count
  types : ∀ v ∈ a.elements, v.type = a.type.element

def zeros (type : ArrayType) : Except Fault NdArray := do
  let type ← ArrayType.make type.element type.shape
  let zero ← Scalar.zero type.element
  pure ⟨type, List.replicate type.count zero⟩

def ofElements (type : ArrayType) (elements : List Scalar) : Except Fault NdArray := do
  let type ← ArrayType.make type.element type.shape
  if elements.length = type.count then
    match elements.find? (·.type ≠ type.element) with
    | some other => .error (.shapeMismatch (.single type.element) (.single other.type))
    | none => pure ⟨type, elements⟩
  else .error (.elementCount type elements.length)

def length (a : NdArray) : Nat := a.type.shape.headD 0

def element (a : NdArray) (offset : Nat) : Scalar := a.elements.getD offset .stretch

def gather (a : NdArray) (s : Selection) : Indexed :=
  if s.shape.isEmpty then .scalar (a.element (s.offsets.headD 0))
  else .array ⟨⟨a.type.element, s.shape⟩, s.offsets.map a.element⟩

def get (a : NdArray) (subscript : List IndexSpec) : Except Fault Indexed := do
  pure (a.gather (← Selection.ofSubscript a.type.shape subscript))

end NdArray

def bitIndex (subscript : List IndexSpec) : Except Fault IndexSpec :=
  match subscript with
  | [spec] => .ok spec
  | _ => .error (.bitIndexCount subscript.length)

/-- One more pair of brackets: into an array, or into the bits of an element. -/
def Indexed.bracket (i : Indexed) (subscript : List IndexSpec) : Except Fault Indexed :=
  match i with
  | .array a => a.get subscript
  | .scalar v => do pure (.bits (← v.slice (← bitIndex subscript)))
  | .bits b => do pure (.bits (← b.slice (← bitIndex subscript)))

namespace NdArray

def getChain (a : NdArray) (subscripts : List (List IndexSpec)) : Except Fault Indexed :=
  subscripts.foldlM Indexed.bracket (.array a)

def append (a b : NdArray) : Except Fault NdArray :=
  if a.type.element = b.type.element ∧ a.type.shape.tail = b.type.shape.tail then
    .ok ⟨⟨a.type.element, (a.length + b.length) :: a.type.shape.tail⟩, a.elements ++ b.elements⟩
  else .error (.shapeMismatch a.type b.type)

end NdArray

end QasmValues
