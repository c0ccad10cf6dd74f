import QasmValues.NdArray
import QasmValues.Overwrite

/-! Writing to parts of an array.
A view remembers the places of a part in its array. A value is assigned to the
whole view or not at all; where a place occurs twice the later write wins. -/

namespace QasmValues

/-- A part of an array that can be written. -/
structure View where
  array : NdArray
  selection : Selection
  deriving DecidableEq, Repr

namespace NdArray

def view (a : NdArray) (subscript : List IndexSpec) : Except Fault View := do
  pure ⟨a, ← Selection.ofSubscript a.type.shape subscript⟩

end NdArray

namespace View

def length (v : View) : Nat := v.selection.offsets.length

def content (v : View) : Indexed := v.array.gather v.selection

def type (v : View) : ArrayType := ⟨v.array.type.element, v.selection.shape⟩

def write (v : View) (writes : List (Nat × Scalar)) : View :=
  { v with array := { v.array with elements := overwrite v.array.elements writes } }

def set (v : View) (index : Int64) (value : Scalar) : Except Fault View :=
  if value.type = v.array.type.element then do
    let position ← resolveIndex index v.length
    pure (v.write [(v.selection.offsets.getD position 0, value)])
  else .error (.shapeMismatch (.single v.array.type.element) (.single value.type))

/-- The elements of a value of the type and shape of the view. A bit string
counts as one element. -/
def elementsOf? (v : View) (value : Indexed) : Option (List Scalar) :=
  if value.type = v.type then
    match value with
    | .scalar x => some [x]
    | .bits b => some [.bit b]
    | .array a => some a.elements
  else none

def assign (v : View) (value : Indexed) : Except Fault View :=
  match v.elementsOf? value with
  | some elements => .ok (v.write (v.selection.offsets.zip elements))
  | none => .error (.shapeMismatch v.type value.described)

end View

namespace NdArray

def assign (a : NdArray) (subscript : List IndexSpec) (value : Indexed) : Except Fault NdArray := do
  let view ← a.view subscript
  pure (← view.assign value).array

def assignBits (a : NdArray) (subscript : List IndexSpec) (spec : IndexSpec) (value : Bits) :
    Except Fault NdArray := do
  let view ← a.view subscript
  if view.selection.shape.isEmpty then
    let offset := view.selection.offsets.headD 0
    let updated ← (a.element offset).setSlice spec value
    pure { a with elements := a.elements.set offset updated }
  else .error (.notBitIndexable view.type)

end NdArray

end QasmValues
