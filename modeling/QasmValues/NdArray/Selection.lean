import QasmValues.Index

/-! Selections of elements by a subscript.
A subscript has an index expression for each of the outer dimensions; the rest
are taken whole. Elements are numbered row by row, so a position in a dimension
counts for as many elements as the dimensions inside it hold. -/

namespace QasmValues

/-- The numbers of the selected elements and the shape that they form, which
leaves out the dimensions with a single index. -/
structure Selection where
  offsets : List Nat
  shape : List Nat
  deriving DecidableEq, Repr

namespace Selection

/-- The same selection inside each of the given positions of an outer dimension. -/
def within (inner : Selection) (positions kept : List Nat) (stride : Nat) : Selection :=
  ⟨positions.flatMap fun position => inner.offsets.map (position * stride + ·),
    kept ++ inner.shape⟩

def keptExtent (spec : IndexSpec) (positions : List Nat) : List Nat :=
  if spec.isSingle then [] else [positions.length]

def resolve : (shape : List Nat) → (subscript : List IndexSpec) → Except Fault Selection
  | [], _ => .ok ⟨[0], []⟩
  | extent :: shape, [] => do
    let inner ← resolve shape []
    pure (inner.within (List.range extent) [extent] (shapeSize shape))
  | extent :: shape, spec :: subscript => do
    let positions ← spec.resolve extent
    let inner ← resolve shape subscript
    pure (inner.within positions (keptExtent spec positions) (shapeSize shape))

def ofSubscript (shape : List Nat) (subscript : List IndexSpec) : Except Fault Selection :=
  if shape.length < subscript.length then
    .error (.excessIndices shape.length subscript.length)
  else resolve shape subscript

end Selection

end QasmValues
