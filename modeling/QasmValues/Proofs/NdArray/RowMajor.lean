import Mathlib.Data.List.Forall2
import Mathlib.Data.List.Nodup
import QasmValues.ArrayType

/-! Places of a shape in row-major order.
A place has a multi-index and a number. The multi-indices of a shape, listed with
the last entry varying fastest, have the numbers 0, 1, … up to the size of the
shape, so that a number belongs to one place only and no place lies outside. -/

namespace QasmValues

variable {shape index other : List Nat}

/-- A multi-index of the shape: one entry below each extent. -/
def InShape (shape index : List Nat) : Prop := List.Forall₂ (· < ·) index shape

instance : DecidableRel InShape := fun shape index =>
  inferInstanceAs (Decidable (List.Forall₂ (· < ·) index shape))

/-- The number of a place, each entry counting for what the dimensions inside hold. -/
def rowMajor : (shape index : List Nat) → Nat
  | _ :: shape, i :: index => i * shapeSize shape + rowMajor shape index
  | _, _ => 0

/-- The multi-indices of a shape, the last entry varying fastest. -/
def indices : (shape : List Nat) → List (List Nat)
  | [] => [[]]
  | extent :: shape => (List.range extent).flatMap fun i => (indices shape).map (i :: ·)

theorem mem_indices : index ∈ indices shape ↔ InShape shape index := by
  induction shape generalizing index with
  | nil => simp [indices, InShape]
  | cons extent shape ih =>
    cases index with
    | nil => simp [indices, InShape]
    | cons i index => simp [indices, InShape, ih]

theorem place_lt {rows columns i j : Nat} (row : i < rows) (column : j < columns) :
    i * columns + j < rows * columns :=
  calc i * columns + j < (i + 1) * columns := by
        rw [Nat.succ_mul]
        omega
    _ ≤ rows * columns := Nat.mul_le_mul_right _ row

theorem range_mul (rows columns : Nat) :
    List.range (rows * columns) =
      (List.range rows).flatMap fun i => (List.range columns).map (i * columns + ·) := by
  induction rows with
  | zero => simp
  | succ rows ih =>
    rw [Nat.succ_mul, List.range_add, ih, List.range_succ, List.flatMap_append,
      List.flatMap_singleton]

theorem map_rowMajor_indices (shape : List Nat) :
    (indices shape).map (rowMajor shape) = List.range (shapeSize shape) := by
  induction shape with
  | nil => rfl
  | cons extent shape ih =>
    rw [shapeSize_cons, range_mul, ← ih, indices, List.map_flatMap]
    simp only [List.map_map]
    rfl

theorem length_indices (shape : List Nat) : (indices shape).length = shapeSize shape := by
  rw [← List.length_map (rowMajor shape), map_rowMajor_indices, List.length_range]

theorem rowMajor_lt (h : InShape shape index) : rowMajor shape index < shapeSize shape := by
  have number := List.mem_map_of_mem (f := rowMajor shape) (mem_indices.mpr h)
  rwa [map_rowMajor_indices, List.mem_range] at number

theorem rowMajor_inj (h : InShape shape index) (ho : InShape shape other)
    (same : rowMajor shape index = rowMajor shape other) : index = other := by
  have numbers := List.nodup_range (n := shapeSize shape)
  rw [← map_rowMajor_indices] at numbers
  exact List.inj_on_of_nodup_map numbers (mem_indices.mpr h) (mem_indices.mpr ho) same

theorem getElem?_indices (h : InShape shape index) :
    (indices shape)[rowMajor shape index]? = some index := by
  obtain ⟨number, found⟩ := List.mem_iff_getElem?.mp (mem_indices.mpr h)
  have here : ((indices shape).map (rowMajor shape))[number]? = some (rowMajor shape index) := by
    rw [List.getElem?_map, found, Option.map_some]
  rw [map_rowMajor_indices] at here
  obtain ⟨bound, same⟩ := List.getElem?_eq_some_iff.mp here
  rw [List.getElem_range] at same
  rwa [← same]

end QasmValues
