import QasmValues.NdArray
import QasmValues.Proofs.NdArray.Selection

/-! Parts of an array.
A part along some axes has the kept dimensions, and each of its places holds the
element that the array holds where the place is located. Reading a subscript
yields the part along its axes, or the fault of the first index expression that
does not resolve, and never looks outside the elements. -/

namespace QasmValues

open Axis

namespace NdArray

variable {a b : NdArray} {subscript : List IndexSpec} {axes : List Axis} {index : List Nat}
variable {i : Indexed} {x : Scalar}

/-- The element at a multi-index of the shape. -/
def Holds (a : NdArray) (index : List Nat) (x : Scalar) : Prop :=
  InShape a.type.shape index ∧ a.elements[rowMajor a.type.shape index]? = some x

/-- The part of an array along some axes: the one element if no dimension is kept,
else an array of the kept dimensions. -/
def IsPart (a : NdArray) (axes : List Axis) : Indexed → Prop
  | .scalar x => extents axes = [] ∧ a.Holds (locate axes []) x
  | .array b => extents axes ≠ [] ∧ b.type = ⟨a.type.element, extents axes⟩ ∧
      b.elements.length = b.type.count ∧
      ∀ index, InShape (extents axes) index → ∃ x, a.Holds (locate axes index) x ∧ b.Holds index x
  | .bits _ => False

theorem WellFormed.shape_eq (h : a.WellFormed) : a.type.shape = a.length :: a.type.shape.tail := by
  obtain ⟨extent, shape, outer⟩ := List.exists_cons_of_length_pos h.dimensions.1
  rw [NdArray.length, outer]
  rfl

theorem WellFormed.length_elements (h : a.WellFormed) :
    a.elements.length = a.length * shapeSize a.type.shape.tail := by
  rw [h.count, ArrayType.count, h.shape_eq, shapeSize_cons]
  rfl

theorem WellFormed.exists_holds (h : a.WellFormed) (inside : InShape a.type.shape index) :
    ∃ x, a.Holds index x := by
  have bound : rowMajor a.type.shape index < a.elements.length := by
    rw [h.count]
    exact rowMajor_lt inside
  exact ⟨_, inside, List.getElem?_eq_getElem bound⟩

theorem Holds.element (h : a.Holds index x) : a.element (rowMajor a.type.shape index) = x := by
  rw [NdArray.element, List.getD_eq_getElem?_getD, h.2, Option.getD_some]

theorem gather_along_of_nil (none : extents axes = []) :
    a.gather (.along a.type.shape axes) =
      .scalar (a.element (rowMajor a.type.shape (locate axes []))) := by
  simp [gather, Selection.along, none, indices]

theorem gather_of_ne_nil {s : Selection} (some : s.shape ≠ []) :
    a.gather s = .array ⟨⟨a.type.element, s.shape⟩, s.offsets.map a.element⟩ := by
  simp [gather, some]

theorem get_eq_ok_iff :
    a.get subscript = .ok i ↔
      ∃ axes, Selects a.type.shape subscript axes ∧ i = a.gather (.along a.type.shape axes) := by
  rw [get, bind_eq_ok_iff]
  simp only [Selection.ofSubscript_eq_ok_iff, pure_eq_ok_iff]
  constructor
  · rintro ⟨_, ⟨axes, selects, rfl⟩, rfl⟩
    exact ⟨axes, selects, rfl⟩
  · rintro ⟨axes, selects, rfl⟩
    exact ⟨_, ⟨axes, selects, rfl⟩, rfl⟩

theorem WellFormed.isPart_gather (h : a.WellFormed)
    (selects : Selects a.type.shape subscript axes) :
    a.IsPart axes (a.gather (.along a.type.shape axes)) := by
  by_cases none : extents axes = []
  · have inside : InShape (extents axes) [] := none ▸ .nil
    obtain ⟨x, held⟩ := h.exists_holds (selects.inShape_locate inside)
    rw [gather_along_of_nil none, held.element]
    exact ⟨none, held⟩
  · rw [gather_of_ne_nil none]
    refine ⟨none, rfl, ?_, fun index inside => ?_⟩
    · rw [List.length_map, Selection.length_along]
      rfl
    · obtain ⟨x, held⟩ := h.exists_holds (selects.inShape_locate inside)
      have place :
          (Selection.along a.type.shape axes).offsets[rowMajor (extents axes) index]? = _ :=
        Selection.getElem?_along inside
      refine ⟨x, held, inside, ?_⟩
      change (List.map _ _)[rowMajor (extents axes) index]? = _
      rw [List.getElem?_map, place, Option.map_some, held.element]

theorem WellFormed.offsets_lt (h : a.WellFormed) (selects : Selects a.type.shape subscript axes) :
    ∀ offset ∈ (Selection.along a.type.shape axes).offsets, offset < a.elements.length := by
  rw [h.count]
  exact Selection.offsets_lt selects

theorem WellFormed.types_gather (h : a.WellFormed) (selects : Selects a.type.shape subscript axes) :
    ∀ offset ∈ (Selection.along a.type.shape axes).offsets,
      (a.element offset).type = a.type.element := by
  intro offset member
  have bound := h.offsets_lt selects offset member
  rw [NdArray.element, List.getD_eq_getElem _ _ bound]
  exact h.types _ (List.getElem_mem bound)

theorem WellFormed.of_get (h : a.WellFormed) (read : a.get subscript = .ok (.array b)) :
    b.WellFormed := by
  obtain ⟨axes, selects, part⟩ := get_eq_ok_iff.mp read
  by_cases none : extents axes = []
  · rw [gather_along_of_nil none] at part
    cases part
  · rw [gather_of_ne_nil none] at part
    cases part
    refine ⟨h.element, ⟨List.length_pos_of_ne_nil none, ?_⟩, ?_, ?_⟩
    · exact Nat.le_trans selects.length_extents_le h.dimensions.2
    · rw [List.length_map, Selection.length_along]
      rfl
    · exact List.forall_mem_map.mpr (h.types_gather selects)

/-- Reading a subscript of an array yields the part along the axes that it selects,
which is an element exactly if every dimension has a single index. A subscript that
is too long, or an index expression that does not resolve, is the only fault, and
nothing is read from outside the elements. -/
theorem get_isPart (a : NdArray) (subscript : List IndexSpec) (h : a.WellFormed) :
    let shape := a.type.shape
    (shape.length < subscript.length →
      a.get subscript = .error (.excessIndices shape.length subscript.length)) ∧
    (subscript.length ≤ shape.length →
      (∃ e, Fails shape subscript e) ∨ ∃ axes, Selects shape subscript axes) ∧
    (subscript.length ≤ shape.length → ∀ e, Fails shape subscript e →
      a.get subscript = .error e) ∧
    (∀ axes, Selects shape subscript axes → ∃ part, a.get subscript = .ok part ∧
      a.IsPart axes part ∧
      ((∃ x, part = .scalar x) ↔
        subscript.length = shape.length ∧ ∀ spec ∈ subscript, spec.isSingle = true)) ∧
    (∀ s, Selection.ofSubscript shape subscript = .ok s →
      (∀ offset ∈ s.offsets, offset < a.elements.length) ∧ (s.shape = [] → s.offsets ≠ [])) := by
  intro shape
  refine ⟨fun excess => ?_, fun enough => (selects_or_fails enough).symm, fun enough e failed => ?_,
    fun axes selects => ?_, fun s found => ?_⟩
  · rw [get, Selection.ofSubscript_of_excess excess]
    rfl
  · rw [get, Selection.ofSubscript_of_fails enough failed]
    rfl
  · refine ⟨_, get_eq_ok_iff.mpr ⟨axes, selects, rfl⟩, h.isPart_gather selects, ?_⟩
    rw [← selects.extents_eq_nil_iff]
    by_cases none : extents axes = []
    · exact iff_of_true ⟨_, gather_along_of_nil none⟩ none
    · rw [gather_of_ne_nil none]
      exact iff_of_false nofun none
  · obtain ⟨axes, selects, rfl⟩ := Selection.ofSubscript_eq_ok_iff.mp found
    refine ⟨h.offsets_lt selects, fun none => ?_⟩
    have one : (Selection.along shape axes).offsets.length = _ := Selection.length_along
    change extents axes = [] at none
    rw [none] at one
    exact List.ne_nil_of_length_pos (Nat.lt_of_lt_of_eq Nat.one_pos one.symm)

theorem get_isPart_of_reversed :
    let a : NdArray := ⟨⟨.int 8, [2, 3]⟩, [0, 1, 2, 3, 4, 5].map (.int · 8)⟩
    let subscript : List IndexSpec := [.range none (some (-1)) none, .set [-1, 0, -1]]
    let axes : List Axis := [kept [1, 0], kept [2, 0, 2]]
    (a.WellFormed ∧ Selects a.type.shape subscript axes) ∧
      ∃ part, a.get subscript = .ok part ∧ a.IsPart axes part := by
  intro a subscript axes
  have wellFormed : a.WellFormed := ⟨by decide, by decide, rfl, by decide⟩
  have selects : Selects a.type.shape subscript axes :=
    .several rfl (by decide) (.several rfl (by decide) .nil)
  obtain ⟨part, read, isPart, -⟩ := (get_isPart a subscript wellFormed).2.2.2.1 axes selects
  exact ⟨⟨wellFormed, selects⟩, part, read, isPart⟩

end NdArray

end QasmValues
