import QasmValues.Proofs.NdArray.View
import QasmValues.Proofs.Scalar.Bits

/-! The arrays that can be obtained.
An array is made of zeros or of given elements, read from another, joined of two, or
what an assignment or a write through a view leaves, be it a fault. Only the first two
check what they make; the others rely on it, and what they build or overwrite is
well-formed because what they start from is. -/

namespace QasmValues

open Axis

/-- Scalars, bit strings and whatever the operations on arrays yield, also after a fault. -/
inductive Indexed.Obtained : Indexed → Prop where
  | scalar (x : Scalar) : Obtained (.scalar x)
  | bits (b : Bits) : Obtained (.bits b)
  | zeros {type : ArrayType} {a : NdArray} (made : NdArray.zeros type = .ok a) :
      Obtained (.array a)
  | ofElements {type : ArrayType} {elements : List Scalar} {a : NdArray}
      (made : NdArray.ofElements type elements = .ok a) : Obtained (.array a)
  | get {a : NdArray} {subscript : List IndexSpec} {part : Indexed} (whole : Obtained (.array a))
      (read : a.get subscript = .ok part) : Obtained part
  | getChain {a : NdArray} {subscripts : List (List IndexSpec)} {part : Indexed}
      (whole : Obtained (.array a)) (read : a.getChain subscripts = .ok part) : Obtained part
  | append {a b c : NdArray} (first : Obtained (.array a)) (second : Obtained (.array b))
      (joined : a.append b = .ok c) : Obtained (.array c)
  | assign {a : NdArray} {value : Indexed} (before : Obtained (.array a)) (known : Obtained value)
      (subscript : List IndexSpec) : Obtained (.array (settle a (a.assign subscript value)))
  | assignBits {a : NdArray} (before : Obtained (.array a)) (subscript : List IndexSpec)
      (spec : IndexSpec) (value : Bits) :
      Obtained (.array (settle a (a.assignBits subscript spec value)))
  | view {a : NdArray} {subscript : List IndexSpec} {v : View} {writes : List View.Write}
      (before : Obtained (.array a)) (viewed : a.view subscript = .ok v)
      (known : ∀ write ∈ writes, Obtained write.value) : Obtained (.array (v.after writes).array)
  | content {a : NdArray} {subscript : List IndexSpec} {v : View} {writes : List View.Write}
      (before : Obtained (.array a)) (viewed : a.view subscript = .ok v)
      (known : ∀ write ∈ writes, Obtained write.value) : Obtained (v.after writes).content

namespace ArrayType

variable {element : ScalarType} {shape : List Nat} {type : ArrayType}

theorem make_eq_ok_iff :
    make element shape = .ok type ↔ element.Valid ∧
      (1 ≤ shape.length ∧ shape.length ≤ maxDimensions) ∧ type = ⟨element, shape⟩ := by
  rw [make, ScalarType.validate_bind_eq_ok_iff]
  refine and_congr_right fun _ => ?_
  have possible : (shape.isEmpty || maxDimensions < shape.length) = true ↔
      ¬(1 ≤ shape.length ∧ shape.length ≤ maxDimensions) := by
    rw [Bool.or_eq_true, List.isEmpty_iff_length_eq_zero, decide_eq_true_iff]
    omega
  split
  · rename_i excluded
    simp [possible.mp excluded]
  · rename_i allowed
    rw [possible, not_not] at allowed
    rw [and_iff_right allowed, pure_eq_ok_iff, eq_comm]

end ArrayType

theorem Selection.headD_mem_along {shape : List Nat} {axes : List Axis} (none : extents axes = []) :
    (along shape axes).offsets.headD 0 ∈ (along shape axes).offsets := by
  simp [along, none, indices]

namespace NdArray

variable {a b c : NdArray} {type : ArrayType} {elements : List Scalar}
variable {subscript : List IndexSpec} {value part : Indexed}

theorem wellFormed_of_zeros (made : zeros type = .ok a) : a.WellFormed := by
  obtain ⟨checked, typed, made⟩ := bind_eq_ok_iff.mp made
  obtain ⟨zero, start, made⟩ := bind_eq_ok_iff.mp made
  obtain ⟨valid, dimensions, rfl⟩ := ArrayType.make_eq_ok_iff.mp typed
  cases pure_eq_ok_iff.mp made
  refine ⟨valid, dimensions, List.length_replicate, fun x member => ?_⟩
  obtain ⟨-, rfl⟩ := List.mem_replicate.mp member
  exact (Scalar.type_of_zero start).2

theorem wellFormed_of_ofElements (made : ofElements type elements = .ok a) : a.WellFormed := by
  obtain ⟨checked, typed, made⟩ := bind_eq_ok_iff.mp made
  obtain ⟨valid, dimensions, rfl⟩ := ArrayType.make_eq_ok_iff.mp typed
  split at made
  · rename_i count
    split at made
    · cases made
    · rename_i none
      cases pure_eq_ok_iff.mp made
      refine ⟨valid, dimensions, count, fun x member => ?_⟩
      simpa using List.find?_eq_none.mp none x member
  · cases made

theorem WellFormed.get (h : a.WellFormed) (read : a.get subscript = .ok part) :
    part.WellFormed := by
  cases part with
  | scalar | bits => trivial
  | array b => exact h.of_get read

theorem WellFormed.append (ha : a.WellFormed) (hb : b.WellFormed)
    (joined : a.append b = .ok c) : c.WellFormed := by
  unfold NdArray.append at joined
  split at joined
  · rename_i same
    cases joined
    have length : a.type.shape.tail.length + 1 = a.type.shape.length := by
      have filled := ha.dimensions.1
      rw [List.length_tail]
      omega
    refine ⟨ha.element, ?_, ?_, List.forall_mem_append.mpr ⟨ha.types, fun x member => ?_⟩⟩
    · rw [List.length_cons, length]
      exact ha.dimensions
    · rw [List.length_append, ha.length_elements, hb.length_elements, ← same.2, ← Nat.add_mul]
      rfl
    · exact (hb.types x member).trans same.1.symm
  · cases joined

theorem WellFormed.view {v : View} (h : a.WellFormed) (viewed : a.view subscript = .ok v) :
    v.WellFormed := by
  obtain ⟨s, selected, rfl⟩ := view_eq_ok_iff.mp viewed
  exact ⟨h, subscript, selected⟩

theorem WellFormed.assign (h : a.WellFormed) (known : value.WellFormed)
    (assigned : a.assign subscript value = .ok b) : b.WellFormed := by
  obtain ⟨v, viewed, assigned⟩ := bind_eq_ok_iff.mp assigned
  obtain ⟨w, written, same⟩ := bind_eq_ok_iff.mp assigned
  cases pure_eq_ok_iff.mp same
  have done : v.perform (.assign value) = .ok w := written
  exact ((h.view viewed).perform done known).array

theorem WellFormed.assignBits {spec : IndexSpec} {value : Bits} (h : a.WellFormed)
    (assigned : a.assignBits subscript spec value = .ok b) : b.WellFormed := by
  obtain ⟨v, viewed, assigned⟩ := bind_eq_ok_iff.mp assigned
  obtain ⟨s, selected, rfl⟩ := view_eq_ok_iff.mp viewed
  obtain ⟨axes, selects, rfl⟩ := Selection.ofSubscript_eq_ok_iff.mp selected
  split at assigned
  · rename_i single
    obtain ⟨updated, written, same⟩ := bind_eq_ok_iff.mp assigned
    cases pure_eq_ok_iff.mp same
    let offset := (Selection.along a.type.shape axes).offsets.headD 0
    have place : offset ∈ (Selection.along a.type.shape axes).offsets :=
      Selection.headD_mem_along (List.isEmpty_iff.mp single)
    have element : (a.element offset).type = a.type.element := h.types_gather selects offset place
    obtain ⟨_, _, -, -, type, -⟩ := Scalar.bits_of_setSlice (element ▸ h.element) written
    have types : ∀ write ∈ [(offset, updated)], write.2.type = a.type.element :=
      List.forall_mem_singleton.mpr (type.trans element)
    exact h.overwrite types
  · cases assigned

end NdArray

namespace Indexed

variable {i part : Indexed}

theorem WellFormed.bracket {subscript : List IndexSpec} (h : i.WellFormed)
    (read : i.bracket subscript = .ok part) : part.WellFormed := by
  cases i with
  | array a => exact NdArray.WellFormed.get h read
  | scalar | bits =>
    obtain ⟨_, _, read⟩ := bind_eq_ok_iff.mp read
    obtain ⟨_, _, read⟩ := bind_eq_ok_iff.mp read
    cases read
    trivial

theorem WellFormed.brackets {subscripts : List (List IndexSpec)} (h : i.WellFormed)
    (read : subscripts.foldlM Indexed.bracket i = .ok part) : part.WellFormed := by
  induction subscripts generalizing i with
  | nil =>
    cases read
    exact h
  | cons subscript subscripts ih =>
    rw [List.foldlM_cons] at read
    obtain ⟨next, first, rest⟩ := bind_eq_ok_iff.mp read
    exact ih (h.bracket first) rest

/-- Whatever is obtained is well-formed, also what a fault leaves. -/
theorem Obtained.wellFormed (h : i.Obtained) : i.WellFormed := by
  induction h with
  | scalar | bits => trivial
  | zeros made => exact NdArray.wellFormed_of_zeros made
  | ofElements made => exact NdArray.wellFormed_of_ofElements made
  | get _ read whole => exact NdArray.WellFormed.get whole read
  | getChain _ read whole => exact WellFormed.brackets whole read
  | append _ _ joined first second => exact NdArray.WellFormed.append first second joined
  | assign _ _ _ before known =>
    exact settle_of_forall before fun _ done => NdArray.WellFormed.assign before known done
  | assignBits _ _ _ _ before =>
    exact settle_of_forall before fun _ done => NdArray.WellFormed.assignBits before done
  | view _ viewed _ before known =>
    exact ((NdArray.WellFormed.view before viewed).after known).array
  | content _ viewed _ before known =>
    have after := (NdArray.WellFormed.view before viewed).after known
    obtain ⟨subscript, read⟩ := after.exists_get
    exact after.array.get read

end Indexed

end QasmValues
