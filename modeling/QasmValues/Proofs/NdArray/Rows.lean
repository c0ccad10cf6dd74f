import QasmValues.Proofs.Index
import QasmValues.Proofs.NdArray.Chain
import QasmValues.Proofs.NdArray.Obtained

/-! Rows.
An array is its rows, one after another: a subscript of one index expression reads the rows at
the positions it denotes. The rows of two arrays that are joined are those of the first and
then those of the second, so either of them is read again from the whole. -/

namespace QasmValues

open Axis

namespace IndexSpec

def successive (start count : Nat) : IndexSpec := .set ((List.range' start count).map .ofNat)

theorem resolve_successive {start count length : Nat} (short : length ≤ maxLength)
    (inside : start + count ≤ length) :
    (successive start count).resolve length = .ok (List.range' start count) := by
  refine mapM_map_of_inverse fun position member => resolveIndex_ofNat short ?_
  exact Nat.lt_of_lt_of_le (List.mem_range'_1.mp member).2 inside

end IndexSpec

namespace NdArray

variable {a b c d : NdArray} {position start count : Nat} {index : Int64} {spec : IndexSpec}

/-- The rows at some positions of the outer dimension. -/
def rows (a : NdArray) (positions : List Nat) : NdArray :=
  ⟨⟨a.type.element, positions.length :: a.type.shape.tail⟩,
    positions.flatMap fun position => (a.row position).elements⟩

theorem WellFormed.rows_all (h : a.WellFormed) : a.rows (List.range a.length) = a := by
  have elements := a.map_element_range
  rw [h.length_elements, range_mul, List.map_flatMap] at elements
  simp only [List.map_map] at elements
  rw [rows, List.length_range, ← h.shape_eq]
  exact congrArg (NdArray.mk a.type) elements

/-! ### Reading -/

theorem exists_get_nil (a : NdArray) : ∃ part, a.get [] = .ok part := by
  obtain ⟨axes, selects, -⟩ := selects_whole a.type.shape
  exact ⟨_, get_eq_ok_iff.mpr ⟨axes, selects, rfl⟩⟩

theorem WellFormed.get_single (h : a.WellFormed) (short : a.length ≤ maxLength)
    (low : 0 ≤ index.toInt) (high : index.toInt < a.length) :
    a.get [.single index] = (a.row index.toInt.toNat).get [] := by
  rw [get_single_cons h.shape_eq (Nat.zero_le _), resolveIndex_of_inside short low high]
  rfl

theorem WellFormed.get_rows {positions : List Nat} (h : a.WellFormed)
    (many : spec.isSingle = false) (resolved : spec.resolve a.length = .ok positions) :
    a.get [spec] = .ok (.array (a.rows positions)) := by
  obtain ⟨axes, selects, inner⟩ := selects_whole a.type.shape.tail
  have outer : Selects a.type.shape [spec] (kept positions :: axes) := by
    rw [h.shape_eq]
    exact .several many resolved selects
  refine get_eq_ok_iff.mpr ⟨_, outer, ?_⟩
  rw [h.shape_eq, Selection.along_kept, inner, gather_of_ne_nil]
  · simp only [Selection.within, List.map_flatMap, List.map_map]
    rfl
  · exact List.cons_ne_nil _ _

/-! ### Joining -/

/-- Arrays of one element type and with rows of one shape. -/
def SameRows (a b : NdArray) : Prop :=
  a.type.element = b.type.element ∧ a.type.shape.tail = b.type.shape.tail

theorem append_eq_ok_iff :
    a.append b = .ok d ↔ a.SameRows b ∧
      d = ⟨⟨a.type.element, (a.length + b.length) :: a.type.shape.tail⟩,
        a.elements ++ b.elements⟩ := by
  unfold append
  split
  · rename_i same
    rw [Except.ok.injEq, eq_comm]
    exact (and_iff_right same).symm
  · rename_i other
    exact iff_of_false nofun fun both => other both.1

theorem type_of_append (joined : a.append b = .ok d) :
    d.type = ⟨a.type.element, (a.length + b.length) :: a.type.shape.tail⟩ := by
  obtain ⟨-, rfl⟩ := append_eq_ok_iff.mp joined
  rfl

theorem length_of_append (joined : a.append b = .ok d) : d.length = a.length + b.length := by
  rw [NdArray.length, type_of_append joined]
  rfl

theorem WellFormed.row_append_left (ha : a.WellFormed) (joined : a.append b = .ok d)
    (inside : position < a.length) : d.row position = a.row position := by
  obtain ⟨-, rfl⟩ := append_eq_ok_iff.mp joined
  refine congrArg (NdArray.mk _) (List.map_congr_left fun offset member => ?_)
  refine List.getD_append _ _ _ _ ?_
  rw [ha.length_elements]
  exact place_lt inside (List.mem_range.mp member)

theorem WellFormed.row_append_right (ha : a.WellFormed) (joined : a.append b = .ok d)
    (position : Nat) : d.row (a.length + position) = b.row position := by
  obtain ⟨⟨element, tail⟩, rfl⟩ := append_eq_ok_iff.mp joined
  rw [NdArray.row, NdArray.row, ← element, ← tail]
  refine congrArg (NdArray.mk _) (List.map_congr_left fun offset _ => ?_)
  have place : (a.length + position) * shapeSize a.type.shape.tail + offset =
      a.elements.length + (position * shapeSize a.type.shape.tail + offset) := by
    rw [ha.length_elements, Nat.add_mul, Nat.add_assoc]
  change (a.elements ++ b.elements).getD _ _ = _
  rw [List.tail_cons, place, List.getD_append_right _ _ _ _ (Nat.le_add_right _ _),
    Nat.add_sub_cancel_left]
  rfl

theorem rows_shift (element : d.type.element = a.type.element)
    (inner : d.type.shape.tail = a.type.shape.tail)
    (same : ∀ position, position < count → d.row (start + position) = a.row position) :
    d.rows (List.range' start count) = a.rows (List.range count) := by
  have elements : (List.range count).flatMap (fun position => (d.row (start + position)).elements) =
      (List.range count).flatMap fun position => (a.row position).elements :=
    List.flatMap_congr fun position member => by rw [same position (List.mem_range.mp member)]
  rw [rows, rows, List.range'_eq_map_range, List.flatMap_map, elements, element, inner,
    List.length_map]

theorem WellFormed.rows_append_left (ha : a.WellFormed) (joined : a.append b = .ok d) :
    d.rows (List.range' 0 a.length) = a := by
  have type := type_of_append joined
  have same (position : Nat) (inside : position < a.length) :
      d.row (0 + position) = a.row position := by
    rw [Nat.zero_add]
    exact ha.row_append_left joined inside
  rw [rows_shift (by rw [type]) (by rw [type, List.tail_cons]) same, ha.rows_all]

theorem WellFormed.rows_append_right (ha : a.WellFormed) (hb : b.WellFormed)
    (joined : a.append b = .ok d) : d.rows (List.range' a.length b.length) = b := by
  have type := type_of_append joined
  obtain ⟨⟨element, inner⟩, -⟩ := append_eq_ok_iff.mp joined
  have same (position : Nat) (_ : position < b.length) :
      d.row (a.length + position) = b.row position := ha.row_append_right joined position
  rw [rows_shift (by rw [type, element]) (by rw [type, List.tail_cons, inner]) same, hb.rows_all]

theorem WellFormed.get_single_append_left (ha : a.WellFormed) (hb : b.WellFormed)
    (joined : a.append b = .ok d) (total : a.length + b.length ≤ maxLength)
    (low : 0 ≤ index.toInt) (high : index.toInt < a.length) :
    ∃ part, a.get [.single index] = .ok part ∧ d.get [.single index] = .ok part := by
  have length := length_of_append joined
  have position : index.toInt.toNat < a.length := by omega
  obtain ⟨part, read⟩ := (a.row index.toInt.toNat).exists_get_nil
  refine ⟨part, (ha.get_single (by omega) low high).trans read, ?_⟩
  rw [(ha.append hb joined).get_single (by omega) low (by omega),
    ha.row_append_left joined position, read]

theorem WellFormed.get_single_append_right (ha : a.WellFormed) (hb : b.WellFormed)
    (joined : a.append b = .ok d) (total : a.length + b.length ≤ maxLength)
    (low : a.length ≤ index.toInt) (high : index.toInt < a.length + b.length) :
    ∃ part, b.get [.single (index - .ofNat a.length)] = .ok part ∧
      d.get [.single index] = .ok part := by
  have length := length_of_append joined
  have back := toInt_sub_ofNat low
  obtain ⟨part, read⟩ := (b.row (index.toInt - a.length).toNat).exists_get_nil
  refine ⟨part, ?_, ?_⟩
  · rw [hb.get_single (by omega) (by omega) (by omega), back, read]
  · have place : index.toInt.toNat = a.length + (index.toInt - a.length).toNat := by omega
    rw [(ha.append hb joined).get_single (by omega) (by omega) (by omega), place,
      ha.row_append_right joined, read]

theorem append_append_eq_ok_iff :
    (do (← a.append b).append c) = .ok d ↔ (a.SameRows b ∧ b.SameRows c) ∧
      d = ⟨⟨a.type.element, (a.length + b.length + c.length) :: a.type.shape.tail⟩,
        a.elements ++ b.elements ++ c.elements⟩ := by
  simp only [bind_eq_ok_iff, append_eq_ok_iff]
  constructor
  · rintro ⟨_, ⟨same, rfl⟩, ⟨element, inner⟩, rfl⟩
    exact ⟨⟨same, same.1.symm.trans element, same.2.symm.trans inner⟩, rfl⟩
  · rintro ⟨⟨same, next⟩, rfl⟩
    exact ⟨_, ⟨same, rfl⟩, ⟨same.1.trans next.1, same.2.trans next.2⟩, rfl⟩

theorem append_assoc_eq_ok_iff :
    (do (← a.append b).append c) = .ok d ↔ (do a.append (← b.append c)) = .ok d := by
  rw [append_append_eq_ok_iff, List.append_assoc, Nat.add_assoc]
  simp only [bind_eq_ok_iff, append_eq_ok_iff]
  constructor
  · rintro ⟨⟨same, next⟩, rfl⟩
    exact ⟨_, ⟨next, rfl⟩, same, rfl⟩
  · rintro ⟨_, ⟨next, rfl⟩, same, rfl⟩
    exact ⟨⟨same, next⟩, rfl⟩

/-- Arrays are joined if their elements have one type and their rows one shape, in whatever
brackets. The outer extent is the sum. As long as it can be indexed, a single index reads what
it reads in the first array or, counted from the end of that one, in the second, and the two
runs of positions read the two arrays. -/
theorem append_joins_rows (a b c : NdArray) (ha : a.WellFormed) (hb : b.WellFormed) :
    ((∃ d, a.append b = .ok d) ↔
      a.type.element = b.type.element ∧ a.type.shape.tail = b.type.shape.tail) ∧
    (∀ d, a.append b = .ok d →
      d.type = ⟨a.type.element, (a.length + b.length) :: a.type.shape.tail⟩ ∧
      (a.length + b.length ≤ maxLength →
        (∀ index : Int64, 0 ≤ index.toInt → index.toInt < a.length →
          ∃ part, a.get [.single index] = .ok part ∧ d.get [.single index] = .ok part) ∧
        (∀ index : Int64, a.length ≤ index.toInt → index.toInt < a.length + b.length →
          ∃ part, b.get [.single (index - .ofNat a.length)] = .ok part ∧
            d.get [.single index] = .ok part) ∧
        d.get [.successive 0 a.length] = .ok (.array a) ∧
        d.get [.successive a.length b.length] = .ok (.array b))) ∧
    ∀ d, (do (← a.append b).append c) = .ok d ↔ (do a.append (← b.append c)) = .ok d := by
  refine ⟨⟨?_, ?_⟩, fun d joined => ⟨type_of_append joined, fun total => ?_⟩,
    fun _ => append_assoc_eq_ok_iff⟩
  · rintro ⟨d, joined⟩
    exact (append_eq_ok_iff.mp joined).1
  · intro same
    exact ⟨_, append_eq_ok_iff.mpr ⟨same, rfl⟩⟩
  · have hd := ha.append hb joined
    have length := length_of_append joined
    have short : d.length ≤ maxLength := by omega
    refine ⟨fun _ => ha.get_single_append_left hb joined total,
      fun _ => ha.get_single_append_right hb joined total, ?_, ?_⟩
    · rw [hd.get_rows rfl (IndexSpec.resolve_successive short (by omega)),
        ha.rows_append_left joined]
    · rw [hd.get_rows rfl (IndexSpec.resolve_successive short (by omega)),
        ha.rows_append_right hb joined]

theorem append_joins_rows_of_empty :
    let a : NdArray := ⟨⟨.int 8, [2, 2]⟩, [1, 2, 3, 4].map (.int · 8)⟩
    let b : NdArray := ⟨⟨.int 8, [0, 2]⟩, []⟩
    let c : NdArray := ⟨⟨.int 8, [1, 2]⟩, [5, 6].map (.int · 8)⟩
    let d : NdArray := ⟨⟨.int 8, [3, 2]⟩, [1, 2, 3, 4, 5, 6].map (.int · 8)⟩
    (a.WellFormed ∧ b.WellFormed ∧ c.WellFormed ∧ a.append b = .ok a ∧ a.append c = .ok d) ∧
      a.get [.successive 2 0] = .ok (.array b) ∧
      a.get [.single 1] = d.get [.single 1] ∧ c.get [.single 0] = d.get [.single 2] ∧
      d.get [.successive 0 2] = .ok (.array a) ∧ d.get [.successive 2 1] = .ok (.array c) ∧
      (do a.append (← b.append c)) = .ok d := by
  intro a b c d
  have ha : a.WellFormed := ⟨by decide, by decide, rfl, by decide⟩
  have hb : b.WellFormed := ⟨by decide, by decide, rfl, by decide⟩
  have hc : c.WellFormed := ⟨by decide, by decide, rfl, by decide⟩
  have empty : a.append b = .ok a := by decide
  have joined : a.append c = .ok d := by decide
  obtain ⟨-, whole, assoc⟩ := append_joins_rows a b c ha hb
  obtain ⟨-, none⟩ := whole a empty
  obtain ⟨-, rows, -⟩ := append_joins_rows a c b ha hc
  obtain ⟨-, read⟩ := rows d joined
  obtain ⟨first, second, left, right⟩ := read (by decide)
  obtain ⟨lower, before, after⟩ := first 1 (by decide) (by decide)
  obtain ⟨upper, here, there⟩ := second 2 (by decide) (by decide)
  have back : (2 : Int64) - .ofNat a.length = 0 := by decide
  rw [back] at here
  have brackets : (do (← a.append b).append c) = .ok d := by
    rw [empty]
    exact joined
  exact ⟨⟨ha, hb, hc, empty, joined⟩, (none (by decide)).2.2.2, before.trans after.symm,
    here.trans there.symm, left, right, (assoc d).mp brackets⟩

end NdArray

end QasmValues
