import QasmValues.ScalarType

/-! Array types.
An array type with no dimensions stands for its element type alone: that is how
the target of a subscript that picks one element is described. -/

namespace QasmValues

def maxDimensions : Nat := 7

/-- The number of places in a shape. -/
def shapeSize : List Nat → Nat
  | [] => 1
  | extent :: shape => extent * shapeSize shape

@[simp] theorem shapeSize_nil : shapeSize [] = 1 := rfl

@[simp] theorem shapeSize_cons (extent : Nat) (shape : List Nat) :
    shapeSize (extent :: shape) = extent * shapeSize shape := rfl

/-- An element type and the extent of each dimension, outermost first. -/
structure ArrayType where
  element : ScalarType
  shape : List Nat
  deriving DecidableEq, Repr, Inhabited

namespace ArrayType

def single (element : ScalarType) : ArrayType := ⟨element, []⟩

def count (t : ArrayType) : Nat := shapeSize t.shape

def text (t : ArrayType) : String :=
  match t.shape with
  | [] => t.element.text
  | shape => "array[" ++ t.element.text ++ ", " ++ ", ".intercalate (shape.map toString) ++ "]"

end ArrayType

end QasmValues
