import QasmValues.Proofs.NdArray.Chain
import QasmValues.Proofs.NdArray.InPlace
import QasmValues.Proofs.NdArray.Obtained

/-! Bits of an element.
A subscript with a single index for every dimension leads to one place of the array. Bits
that are written there are written to the element that is read there, and the changed element
is what an assignment would put back; a bracket after the subscript then reads its bits. -/

namespace QasmValues

open Axis

variable {shape index : List Nat} {axes : List Axis} {subscript : List IndexSpec}

/-! ### One place -/

theorem extents_dropped (index : List Nat) : extents (index.map dropped) = [] := by
  induction index with
  | nil => rfl
  | cons _ _ ih => exact ih

theorem locate_dropped (index : List Nat) : locate (index.map dropped) [] = index := by
  induction index with
  | nil => rfl
  | cons position _ ih => exact congrArg (position :: ·) ih

theorem exists_dropped (none : extents axes = []) :
    ∃ index : List Nat, axes = index.map dropped := by
  induction axes with
  | nil => exact ⟨[], rfl⟩
  | cons axis axes ih =>
    cases axis with
    | dropped position =>
      obtain ⟨index, rfl⟩ := ih none
      exact ⟨position :: index, rfl⟩
    | kept => cases none

theorem Selection.along_dropped_all (shape index : List Nat) :
    along shape (index.map dropped) = ⟨[rowMajor shape index], []⟩ := by
  simp [along, extents_dropped, locate_dropped, indices]

namespace NdArray

variable {a b : NdArray} {other : List Nat} {x y z : Scalar} {spec : IndexSpec} {value : Bits}

def put (a : NdArray) (index : List Nat) (y : Scalar) : NdArray :=
  { a with elements := a.elements.set (rowMajor a.type.shape index) y }

theorem holds_put (held : a.Holds index x) : (a.put index y).Holds index y := by
  have bound := (List.getElem?_eq_some_iff.mp held.2).1
  exact ⟨held.1, List.getElem?_set_self bound⟩

theorem holds_put_iff (held : a.Holds index x) (apart : other ≠ index) :
    (a.put index y).Holds other z ↔ a.Holds other z := by
  refine and_congr_right fun inside => ?_
  have place : rowMajor a.type.shape index ≠ rowMajor a.type.shape other :=
    fun same => apart (rowMajor_inj held.1 inside same).symm
  rw [put, List.getElem?_set_ne place]

theorem WellFormed.put (h : a.WellFormed) (index : List Nat) (type : y.type = a.type.element) :
    (a.put index y).WellFormed := by
  have types : ∀ write ∈ [(rowMajor a.type.shape index, y)], write.2.type = a.type.element :=
    List.forall_mem_singleton.mpr type
  exact h.overwrite types

theorem view_of_dropped (selects : Selects a.type.shape subscript (index.map dropped)) :
    a.view subscript = .ok ⟨a, ⟨[rowMajor a.type.shape index], []⟩⟩ := by
  rw [view, Selection.ofSubscript_of_selects selects, Selection.along_dropped_all]
  rfl

theorem WellFormed.get_eq_scalar_iff (h : a.WellFormed) :
    a.get subscript = .ok (.scalar x) ↔
      ∃ index, Selects a.type.shape subscript (index.map dropped) ∧ a.Holds index x := by
  rw [get_eq_ok_iff]
  constructor
  · rintro ⟨axes, selects, part⟩
    by_cases none : extents axes = []
    · obtain ⟨index, rfl⟩ := exists_dropped none
      have inside : InShape (extents (index.map dropped)) [] := by
        rw [none]
        exact .nil
      obtain ⟨y, held⟩ := h.exists_holds (selects.inShape_locate inside)
      rw [gather_along_of_nil none, held.element] at part
      rw [locate_dropped] at held
      cases part
      exact ⟨index, selects, held⟩
    · rw [gather_of_ne_nil none] at part
      cases part
  · rintro ⟨index, selects, held⟩
    refine ⟨_, selects, ?_⟩
    rw [gather_along_of_nil (extents_dropped index), locate_dropped, held.element]

theorem assign_of_dropped (selects : Selects a.type.shape subscript (index.map dropped))
    (type : y.type = a.type.element) : a.assign subscript (.scalar y) = .ok (a.put index y) := by
  refine (assign_eq_ok_iff ?known).mpr
    ⟨_, Selection.ofSubscript_of_selects selects, ⟨extents_dropped index, type⟩, ?stored⟩
  case known => trivial
  case stored =>
    rw [Selection.along_dropped_all]
    rfl

theorem assignBits_of_dropped (selects : Selects a.type.shape subscript (index.map dropped))
    (held : a.Holds index x) :
    a.assignBits subscript spec value = (x.setSlice spec value).map (a.put index) := by
  have element : a.element (rowMajor a.type.shape index) = x := held.element
  rw [assignBits, view_of_dropped selects]
  change ((a.element (rowMajor a.type.shape index)).setSlice spec value >>= pure ∘ a.put index) = _
  rw [element]
  cases x.setSlice spec value <;> rfl

theorem assignBits_of_error {e : Fault} (failed : a.get subscript = .error e) :
    a.assignBits subscript spec value = .error e := by
  obtain unresolved | ⟨_, -, h⟩ := bind_eq_error_iff.mp failed
  · rw [assignBits, view, unresolved]
    rfl
  · cases h

theorem assignBits_of_array (read : a.get subscript = .ok (.array b)) :
    a.assignBits subscript spec value = .error (.notBitIndexable b.type) := by
  obtain ⟨axes, selects, part⟩ := get_eq_ok_iff.mp read
  by_cases none : extents axes = []
  · rw [gather_along_of_nil none] at part
    cases part
  · rw [gather_of_ne_nil none] at part
    cases part
    rw [assignBits, view, Selection.ofSubscript_of_selects selects]
    exact if_neg fun empty => none (List.isEmpty_iff.mp empty)

theorem get_ne_bits (c : Bits) : a.get subscript ≠ .ok (.bits c) := by
  intro read
  obtain ⟨axes, -, part⟩ := get_eq_ok_iff.mp read
  unfold gather at part
  split at part <;> cases part

theorem WellFormed.type_of_holds (h : a.WellFormed) (held : a.Holds index x) :
    x.type = a.type.element := h.types x (List.mem_of_getElem? held.2)

theorem WellFormed.type_of_setSlice (h : a.WellFormed) (held : a.Holds index x)
    (changed : x.setSlice spec value = .ok y) : y.type = a.type.element := by
  have type := h.type_of_holds held
  obtain ⟨_, _, -, -, same, -⟩ := Scalar.bits_of_setSlice (type ▸ h.element) changed
  exact same.trans type

/-- Bits are written to an element by reading it, changing it and assigning it. -/
theorem WellFormed.assignBits_eq (h : a.WellFormed) (subscript : List IndexSpec)
    (spec : IndexSpec) (value : Bits) :
    a.assignBits subscript spec value = (do
      match ← a.get subscript with
      | .scalar x => do a.assign subscript (.scalar (← x.setSlice spec value))
      | part => .error (.notBitIndexable part.type)) := by
  cases read : a.get subscript with
  | error e => exact assignBits_of_error read
  | ok part =>
    cases part with
    | scalar x =>
      obtain ⟨index, selects, held⟩ := h.get_eq_scalar_iff.mp read
      rw [assignBits_of_dropped selects held]
      change _ = (do a.assign subscript (.scalar (← x.setSlice spec value)))
      cases changed : x.setSlice spec value with
      | error e => rfl
      | ok y => exact (assign_of_dropped selects (h.type_of_setSlice held changed)).symm
    | array b => exact assignBits_of_array read
    | bits c => exact absurd read (get_ne_bits c)

theorem WellFormed.assignBits_of_changed (h : a.WellFormed)
    (read : a.get subscript = .ok (.scalar x)) (changed : x.setSlice spec value = .ok y) :
    ∃ index, Selects a.type.shape subscript (index.map dropped) ∧ a.Holds index x ∧
      y.type = a.type.element ∧ a.assignBits subscript spec value = .ok (a.put index y) := by
  obtain ⟨index, selects, held⟩ := h.get_eq_scalar_iff.mp read
  refine ⟨index, selects, held, h.type_of_setSlice held changed, ?_⟩
  rw [assignBits_of_dropped selects held, changed]
  rfl

theorem WellFormed.exists_assignBits_iff (h : a.WellFormed) :
    (∃ b, a.assignBits subscript spec value = .ok b) ↔
      ∃ x y, a.get subscript = .ok (.scalar x) ∧ x.setSlice spec value = .ok y := by
  constructor
  · rintro ⟨b, done⟩
    rw [h.assignBits_eq] at done
    obtain ⟨part, read, done⟩ := bind_eq_ok_iff.mp done
    cases part with
    | scalar x =>
      obtain ⟨y, changed, -⟩ := bind_eq_ok_iff.mp done
      exact ⟨x, y, read, changed⟩
    | array | bits => cases done
  · rintro ⟨x, y, read, changed⟩
    obtain ⟨index, -, -, -, done⟩ := h.assignBits_of_changed read changed
    exact ⟨_, done⟩

/-- The array `b` is `a` with the element at one multi-index changed. -/
structure Replaced (a b : NdArray) (index : List Nat) (x y : Scalar) : Prop where
  type : b.type = a.type
  old : a.Holds index x
  new : b.Holds index y
  others : ∀ other, other ≠ index → ∀ z, b.Holds other z ↔ a.Holds other z

theorem replaced_put (held : a.Holds index x) (y : Scalar) : a.Replaced (a.put index y) index x y :=
  ⟨rfl, held, holds_put held, fun _ apart _ => holds_put_iff held apart⟩

theorem WellFormed.getChain_put (h : a.WellFormed)
    (selects : Selects a.type.shape subscript (index.map dropped)) (held : a.Holds index x)
    (type : y.type = a.type.element) (spec : IndexSpec) :
    (a.put index y).getChain [subscript, [spec]] = (y.slice spec).map .bits := by
  have read : (a.put index y).get subscript = .ok (.scalar y) :=
    (h.put index type).get_eq_scalar_iff.mpr ⟨index, selects, holds_put held⟩
  rw [getChain_cons, read, ← bracket_scalar]
  exact bind_pure ((Indexed.scalar y).bracket [spec])

/-! ### In place -/

/-- Bits of an element written in place. -/
def storeBits (a : NdArray) (subscript : List IndexSpec) (spec : IndexSpec) (value : Bits) :
    Except Fault Unit × NdArray :=
  match a.view subscript with
  | .error e => (.error e, a)
  | .ok v =>
    if v.selection.shape.isEmpty then
      let offset := v.selection.offsets.headD 0
      match (a.element offset).setSlice spec value with
      | .error e => (.error e, a)
      | .ok updated =>
        let (report, w) := v.store [(offset, updated)]
        (report, w.array)
    else (.error (.notBitIndexable v.type), a)

theorem WellFormed.storeBits_eq (h : a.WellFormed) (subscript : List IndexSpec)
    (spec : IndexSpec) (value : Bits) :
    a.storeBits subscript spec value = concluded a (a.assignBits subscript spec value) := by
  unfold storeBits NdArray.assignBits
  cases viewed : a.view subscript with
  | error e => rfl
  | ok v =>
    have wellFormed := h.view viewed
    obtain ⟨s, selected, rfl⟩ := view_eq_ok_iff.mp viewed
    obtain ⟨axes, selects, rfl⟩ := Selection.ofSubscript_eq_ok_iff.mp selected
    dsimp only [bind, Except.bind]
    split
    · rename_i single
      have place := wellFormed.inside _ (Selection.headD_mem_along (List.isEmpty_iff.mp single))
      cases Scalar.setSlice _ spec value with
      | error e => rfl
      | ok updated =>
        dsimp only
        rw [View.store_of_inside (List.forall_mem_singleton.mpr place)]
        rfl
    · rfl

/-- Writing bits of an element reads the element, changes it and assigns it, with the faults of
these steps, and what is not an element has no bits. It succeeds just when an element is read
and can be changed so. Only that element changes then, brackets after the subscript read bits
of the new one, and where no position repeats these are the bits that were written. In place
nothing changes otherwise. -/
theorem assignBits_through_element (a : NdArray) (subscript : List IndexSpec) (spec : IndexSpec)
    (value : Bits) (h : a.WellFormed) :
    a.assignBits subscript spec value = (do
      match ← a.get subscript with
      | .scalar x => do a.assign subscript (.scalar (← x.setSlice spec value))
      | part => .error (.notBitIndexable part.type)) ∧
    ((∃ b, a.assignBits subscript spec value = .ok b) ↔
      ∃ x y, a.get subscript = .ok (.scalar x) ∧ x.setSlice spec value = .ok y) ∧
    (∀ x y, a.get subscript = .ok (.scalar x) → x.setSlice spec value = .ok y →
      ∃ b index, a.assignBits subscript spec value = .ok b ∧
        a.assign subscript (.scalar y) = .ok b ∧
        Selects a.type.shape subscript (index.map dropped) ∧ a.Replaced b index x y ∧
        (∀ other, b.getChain [subscript, [other]] = (y.slice other).map .bits) ∧
        ∀ bits positions, x.bits = .ok bits →
          spec.resolve bits.length = .ok positions → positions.Nodup →
          b.getChain [subscript, [spec]] = .ok (.bits value)) ∧
    a.storeBits subscript spec value = concluded a (a.assignBits subscript spec value) := by
  refine ⟨h.assignBits_eq subscript spec value, h.exists_assignBits_iff,
    fun x y read changed => ?_, h.storeBits_eq subscript spec value⟩
  obtain ⟨index, selects, held, type, done⟩ := h.assignBits_of_changed read changed
  have chained := h.getChain_put selects held type
  refine ⟨_, index, done, assign_of_dropped selects type, selects, replaced_put held y, chained,
    fun bits positions read resolved distinct => ?_⟩
  have same := h.type_of_holds held
  rw [chained, Scalar.slice_of_setSlice (same ▸ h.element) changed read resolved distinct]
  rfl

theorem assignBits_through_element_of_sign :
    let a : NdArray := ⟨⟨.int 4, [2, 3]⟩, [0, 1, 2, 3, -3, 5].map (.int · 4)⟩
    let b : NdArray := ⟨⟨.int 4, [2, 3]⟩, [0, 1, 2, 3, 5, 5].map (.int · 4)⟩
    let subscript : List IndexSpec := [.single (-1), .single 1]
    let spec : IndexSpec := .set [-1, 0]
    let value : Bits := ⟨[false, true]⟩
    (a.WellFormed ∧ a.get subscript = .ok (.scalar (.int (-3) 4)) ∧
      (Scalar.int (-3) 4).setSlice spec value = .ok (.int 5 4)) ∧
    a.assignBits subscript spec value = .ok b ∧ a.assign subscript (.scalar (.int 5 4)) = .ok b ∧
    a.Replaced b [1, 1] (.int (-3) 4) (.int 5 4) ∧
    b.getChain [subscript, [spec]] = .ok (.bits value) ∧
    a.storeBits subscript (.single 4) ⟨[true]⟩ = (.error (.indexOutOfRange 4 4), a) ∧
    a.assignBits [.single (-1)] spec value = .error (.notBitIndexable ⟨.int 4, [3]⟩) := by
  intro a b subscript spec value
  have wellFormed : a.WellFormed := ⟨by decide, by decide, rfl, by decide⟩
  have read : a.get subscript = .ok (.scalar (.int (-3) 4)) := by decide
  have changed : (Scalar.int (-3) 4).setSlice spec value = .ok (.int 5 4) := by decide +kernel
  obtain ⟨-, -, effect, -⟩ := assignBits_through_element a subscript spec value wellFormed
  obtain ⟨other, index, done, assigned, selects, replaced, -, back⟩ := effect _ _ read changed
  have same : a.assign subscript (.scalar (.int 5 4)) = .ok b := by decide
  cases same.symm.trans assigned
  have middle : rowMajor [2, 3] index = 4 := by
    have offsets : Selection.ofSubscript a.type.shape subscript = .ok ⟨[4], []⟩ := by decide
    rw [Selection.ofSubscript_of_selects selects, Selection.along_dropped_all] at offsets
    simpa using offsets
  have place : index = [1, 1] := rowMajor_inj replaced.old.1 (by decide) middle
  subst place
  obtain ⟨-, -, -, above⟩ :=
    assignBits_through_element a subscript (.single 4) ⟨[true]⟩ wellFormed
  obtain ⟨row, -⟩ := assignBits_through_element a [.single (-1)] spec value wellFormed
  refine ⟨⟨wellFormed, read, changed⟩, done, assigned, replaced,
    back _ [3, 0] rfl (by decide) (by decide), above.trans ?_, row.trans ?_⟩
  · decide +kernel
  · decide

end NdArray

end QasmValues
