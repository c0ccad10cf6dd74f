import QasmValues.NdArray.View
import QasmValues.Proofs.NdArray.Part
import QasmValues.Proofs.Overwrite

/-! Assignment to parts of an array.
A value suits a part if it has the element type and the shape of the part. The type of
a bit string keeps the low 32 bits of its length, so that it suits a single element of
as many bits, unless a width cannot count them. Assigning it overwrites the places
that reading the part reads, in the same order, so that of several places of the
part that are one place of the array the last decides. -/

namespace QasmValues

open Axis

namespace Indexed

def WellFormed : Indexed → Prop
  | .array a => a.WellFormed
  | .scalar _ | .bits _ => True

/-- A width can count the bits of a bit string. -/
def Sized : Indexed → Prop
  | .bits b => b.length ≤ maxWidth
  | .scalar _ | .array _ => True

def elements : Indexed → List Scalar
  | .scalar x => [x]
  | .bits b => [.bit b]
  | .array a => a.elements

/-- The value has an element type and a shape, no shape standing for one element. -/
def Suits (element : ScalarType) (shape : List Nat) : Indexed → Prop
  | .scalar x => shape = [] ∧ x.type = element
  | .bits b => shape = [] ∧ element = .bit b.width
  | .array a => shape ≠ [] ∧ a.type = ⟨element, shape⟩

variable {value : Indexed} {element : ScalarType} {shape : List Nat}

theorem suits_iff (h : value.WellFormed) :
    value.type = ⟨element, shape⟩ ↔ value.Suits element shape := by
  cases value with
  | scalar x => simp [type, ArrayType.single, Suits, and_comm, eq_comm]
  | bits b => simp [type, ArrayType.single, Suits, and_comm, eq_comm]
  | array a =>
    refine ⟨fun same => ⟨?_, same⟩, fun suits => suits.2⟩
    have filled := h.dimensions.1
    rw [show a.type = ⟨element, shape⟩ from same] at filled
    exact List.ne_nil_of_length_pos filled

theorem Suits.length_elements (h : value.WellFormed) (suits : value.Suits element shape) :
    value.elements.length = shapeSize shape := by
  cases value with
  | scalar | bits =>
    rw [suits.1]
    rfl
  | array a =>
    have count := h.count
    rw [suits.2] at count
    exact count

end Indexed

namespace NdArray

variable {a b : NdArray} {subscript : List IndexSpec} {axes : List Axis} {value part : Indexed}
variable {s : Selection}

def written (a : NdArray) (s : Selection) (values : List Scalar) : NdArray :=
  { a with elements := overwrite a.elements (s.offsets.zip values) }

theorem elementsOf?_eq_some_iff {v : View} {elements : List Scalar} (h : value.WellFormed) :
    v.elementsOf? value = some elements ↔
      value.Suits v.array.type.element v.selection.shape ∧ value.elements = elements := by
  rw [← Indexed.suits_iff h, ← View.type]
  unfold View.elementsOf?
  split
  · rename_i same
    rw [and_iff_right same]
    cases value <;> simp [Indexed.elements]
  · rename_i other
    simp [other]

theorem assign_eq_ok_iff (h : value.WellFormed) :
    a.assign subscript value = .ok b ↔
      ∃ s, Selection.ofSubscript a.type.shape subscript = .ok s ∧
        value.Suits a.type.element s.shape ∧ b = a.written s value.elements := by
  simp only [assign, view, bind_eq_ok_iff, pure_eq_ok_iff]
  constructor
  · rintro ⟨_, ⟨s, found, rfl⟩, v, assigned, rfl⟩
    unfold View.assign at assigned
    split at assigned
    · rename_i elements taken
      obtain ⟨suits, same⟩ := (elementsOf?_eq_some_iff h).mp taken
      cases assigned
      rw [← same]
      exact ⟨s, found, suits, rfl⟩
    · cases assigned
  · rintro ⟨s, found, suits, rfl⟩
    have taken := (elementsOf?_eq_some_iff (v := ⟨a, s⟩) h).mpr ⟨suits, rfl⟩
    refine ⟨⟨a, s⟩, ⟨s, found, rfl⟩, View.write ⟨a, s⟩ (s.offsets.zip value.elements), ?_, rfl⟩
    rw [View.assign, taken]

/-- The array `b` is `a` with the values written to the places of a selection: the
last value for a place is held there, and the other places keep their elements. -/
structure Overwritten (a b : NdArray) (s : Selection) (values : List Scalar) : Prop where
  type : b.type = a.type
  count : b.elements.length = a.elements.length
  selected : ∀ offset ∈ s.offsets, ∃ k x, LastAt s.offsets offset k ∧
    values[k]? = some x ∧ b.elements[offset]? = some x
  others : ∀ offset, offset ∉ s.offsets → b.elements[offset]? = a.elements[offset]?

end NdArray

end QasmValues
