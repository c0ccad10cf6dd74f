import QasmValues.Proofs.InPlace
import QasmValues.Proofs.NdArray.Assignment

/-! Writing through a view.
A view takes an element or a value as a whole, of the right type, and whatever is written
lands in its array, whose type stays. A well-formed array is so left well-formed, and
its view still selects from it. -/

namespace QasmValues

namespace Indexed

variable {value : Indexed} {element : ScalarType} {shape : List Nat}

theorem Suits.types_elements (h : value.WellFormed) (suits : value.Suits element shape) :
    ∀ x ∈ value.elements, x.type = element := by
  cases value with
  | scalar x => exact List.forall_mem_singleton.mpr suits.2
  | bits b => exact List.forall_mem_singleton.mpr suits.2.symm
  | array a =>
    have types := h.types
    rw [suits.2] at types
    exact types

end Indexed

namespace View

/-- A write through a view: to one element, by its number, or to the view as a whole. -/
inductive Write where
  | set (index : Int64) (value : Scalar)
  | assign (value : Indexed)

def Write.value : Write → Indexed
  | set _ value => .scalar value
  | assign value => value

def perform (v : View) : Write → Except Fault View
  | .set index value => v.set index value
  | .assign value => v.assign value

def after (v : View) (writes : List Write) : View :=
  writes.foldl (fun v write => settle v (v.perform write)) v

variable {v w : View} {index : Int64} {x : Scalar} {value : Indexed}

theorem set_eq_ok_iff :
    v.set index x = .ok w ↔ x.type = v.array.type.element ∧
      ∃ position, resolveIndex index v.length = .ok position ∧
        w = v.write [(v.selection.offsets.getD position 0, x)] := by
  unfold set
  split
  · rename_i same
    rw [and_iff_right same, bind_eq_ok_iff]
    exact exists_congr fun _ => and_congr_right fun _ => pure_eq_ok_iff.trans eq_comm
  · rename_i other
    simp [other]

theorem assign_eq_ok_iff :
    v.assign value = .ok w ↔ ∃ elements, v.elementsOf? value = some elements ∧
      w = v.write (v.selection.offsets.zip elements) := by
  unfold assign
  split
  · rename_i elements taken
    simp [taken, eq_comm]
  · rename_i none
    simp [none]

end View

namespace NdArray

variable {a b : NdArray} {subscript : List IndexSpec} {value : Indexed}

theorem view_eq_ok_iff {v : View} :
    a.view subscript = .ok v ↔
      ∃ s, Selection.ofSubscript a.type.shape subscript = .ok s ∧ v = ⟨a, s⟩ := by
  rw [view, bind_eq_ok_iff]
  exact exists_congr fun _ => and_congr_right fun _ => pure_eq_ok_iff.trans eq_comm

theorem type_of_assign (assigned : a.assign subscript value = .ok b) : b.type = a.type := by
  obtain ⟨v, viewed, assigned⟩ := bind_eq_ok_iff.mp assigned
  obtain ⟨w, written, same⟩ := bind_eq_ok_iff.mp assigned
  obtain ⟨s, -, rfl⟩ := view_eq_ok_iff.mp viewed
  obtain ⟨elements, -, rfl⟩ := View.assign_eq_ok_iff.mp written
  cases same
  rfl

theorem WellFormed.overwrite (h : a.WellFormed) {writes : List (Nat × Scalar)}
    (types : ∀ write ∈ writes, write.2.type = a.type.element) :
    WellFormed { a with elements := overwrite a.elements writes } := by
  refine ⟨h.element, h.dimensions, (length_overwrite _ _).trans h.count, fun x member => ?_⟩
  obtain old | ⟨write, new, rfl⟩ := mem_overwrite member
  · exact h.types x old
  · exact types write new

end NdArray

namespace View

variable {v w : View}

/-- The array is well-formed, and the places of the view are selected from it. -/
structure WellFormed (v : View) : Prop where
  array : v.array.WellFormed
  selected : ∃ subscript, Selection.ofSubscript v.array.type.shape subscript = .ok v.selection

theorem WellFormed.write (h : v.WellFormed) {writes : List (Nat × Scalar)}
    (types : ∀ write ∈ writes, write.2.type = v.array.type.element) : (v.write writes).WellFormed :=
  ⟨h.array.overwrite types, h.selected⟩

theorem WellFormed.perform (h : v.WellFormed) {write : Write} (done : v.perform write = .ok w)
    (known : write.value.WellFormed) : w.WellFormed := by
  cases write with
  | set index x =>
    obtain ⟨type, position, -, rfl⟩ := set_eq_ok_iff.mp done
    exact h.write (List.forall_mem_singleton.mpr type)
  | assign value =>
    obtain ⟨elements, taken, rfl⟩ := assign_eq_ok_iff.mp done
    obtain ⟨suits, rfl⟩ := (NdArray.elementsOf?_eq_some_iff known).mp taken
    exact h.write fun place member => suits.types_elements known _ (List.of_mem_zip member).2

theorem WellFormed.after (h : v.WellFormed) {writes : List Write}
    (known : ∀ write ∈ writes, write.value.WellFormed) : (v.after writes).WellFormed := by
  induction writes generalizing v with
  | nil => exact h
  | cons write writes ih =>
    obtain ⟨first, rest⟩ := List.forall_mem_cons.mp known
    exact ih (settle_of_forall h fun _ done => h.perform done first) rest

theorem WellFormed.exists_get (h : v.WellFormed) :
    ∃ subscript, v.array.get subscript = .ok v.content := by
  obtain ⟨subscript, selected⟩ := h.selected
  refine ⟨subscript, ?_⟩
  rw [NdArray.get, selected]
  rfl

end View

end QasmValues
