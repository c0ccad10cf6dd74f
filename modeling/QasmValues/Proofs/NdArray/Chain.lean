import QasmValues.Proofs.NdArray.Part

/-! Successive subscripts.
A single index leads to a row, in which the rest of a subscript is read as it would
be in the whole array. So single indices may be divided among brackets at will, the
last bracket being any subscript, and once they are used up a further bracket leads
into the bits of the element. -/

namespace QasmValues

open Axis

variable {shape : List Nat} {subscript : List IndexSpec} {axes : List Axis}

theorem Selects.extents_of_singles (h : Selects shape subscript axes)
    (singles : ∀ spec ∈ subscript, spec.isSingle = true) :
    extents axes = shape.drop subscript.length := by
  induction h with
  | nil => rfl
  | single _ _ ih => exact ih (List.forall_mem_cons.mp singles).2
  | several many _ _ _ =>
    have single := singles _ List.mem_cons_self
    rw [many] at single
    cases single
  | whole _ ih =>
    rw [extents, ih singles, List.length_range]
    rfl

namespace NdArray

variable {a : NdArray} {extent position : Nat} {index : Int64} {first rest : List IndexSpec}

/-- The subarray at one position of the outer dimension. -/
def row (a : NdArray) (position : Nat) : NdArray :=
  let inner := a.type.shape.tail
  ⟨⟨a.type.element, inner⟩,
    (List.range (shapeSize inner)).map fun offset =>
      a.element (position * shapeSize inner + offset)⟩

theorem WellFormed.row (h : a.WellFormed) (outer : a.type.shape = extent :: shape)
    (filled : shape ≠ []) (bound : position < extent) : (a.row position).WellFormed := by
  have dimensions := h.dimensions.2
  have count := h.count
  rw [outer] at dimensions
  rw [ArrayType.count, outer, shapeSize_cons] at count
  refine ⟨h.element, ?_, ?_, ?_⟩
  · change 1 ≤ a.type.shape.tail.length ∧ a.type.shape.tail.length ≤ maxDimensions
    rw [outer]
    exact ⟨List.length_pos_of_ne_nil filled, Nat.le_of_succ_le dimensions⟩
  · rw [NdArray.row, List.length_map, List.length_range]
    rfl
  · refine List.forall_mem_map.mpr fun offset member => ?_
    have inside := List.mem_range.mp member
    rw [outer, List.tail_cons] at inside ⊢
    have place : position * shapeSize shape + offset < a.elements.length := by
      rw [count]
      exact place_lt bound inside
    rw [NdArray.element, List.getD_eq_getElem _ _ place]
    exact h.types _ (List.getElem_mem place)

theorem element_row (outer : a.type.shape = extent :: shape) {offset : Nat}
    (bound : offset < shapeSize shape) :
    (a.row position).element offset = a.element (position * shapeSize shape + offset) := by
  simp [row, NdArray.element, outer, bound]

theorem gather_row (outer : a.type.shape = extent :: shape) (selects : Selects shape rest axes) :
    a.gather (.along a.type.shape (dropped position :: axes)) =
      (a.row position).gather (.along (a.row position).type.shape axes) := by
  have inner : (a.row position).type.shape = shape := congrArg List.tail outer
  have place {index : List Nat} (inside : InShape (extents axes) index) :
      a.element (rowMajor (extent :: shape) (position :: locate axes index)) =
        (a.row position).element (rowMajor shape (locate axes index)) :=
    (element_row outer (rowMajor_lt (selects.inShape_locate inside))).symm
  by_cases none : extents axes = []
  · have here : extents (dropped position :: axes) = [] := none
    rw [gather_along_of_nil here, gather_along_of_nil none, outer, inner]
    exact congrArg Indexed.scalar (place (none ▸ .nil))
  · have here : extents (dropped position :: axes) ≠ [] := none
    rw [gather_of_ne_nil here, gather_of_ne_nil none, outer, inner]
    simp only [Selection.along, List.map_map]
    refine congrArg (fun elements => Indexed.array ⟨⟨_, _⟩, elements⟩) ?_
    exact List.map_congr_left fun index member => place (mem_indices.mp member)

/-- What follows a single index is read in the row that it leads to. -/
theorem get_single_cons (outer : a.type.shape = extent :: shape)
    (enough : rest.length ≤ shape.length) :
    a.get (.single index :: rest) =
      (do let position ← resolveIndex index extent; (a.row position).get rest) := by
  have inner (position : Nat) : (a.row position).type.shape = shape := congrArg List.tail outer
  have whole : (IndexSpec.single index :: rest).length ≤ (extent :: shape).length :=
    Nat.succ_le_succ enough
  cases resolved : resolveIndex index extent with
  | error e =>
    have failed : (IndexSpec.single index).resolve extent = .error e := by
      rw [IndexSpec.resolve, resolved]
      rfl
    rw [get, outer, Selection.ofSubscript_of_fails whole (.here failed)]
    rfl
  | ok position =>
    change _ = (a.row position).get rest
    have here : (IndexSpec.single index).resolve extent = .ok [position] := by
      rw [IndexSpec.resolve, resolved]
      rfl
    obtain ⟨axes, selects⟩ | ⟨e, failed⟩ := selects_or_fails enough
    · have part : (a.row position).get rest = .ok _ :=
        get_eq_ok_iff.mpr ⟨axes, (inner position).symm ▸ selects, rfl⟩
      rw [part, get_eq_ok_iff]
      exact ⟨_, outer.symm ▸ .single resolved selects, (gather_row outer selects).symm⟩
    · rw [get, get, outer, inner, Selection.ofSubscript_of_fails enough failed,
        Selection.ofSubscript_of_fails whole (.further here failed)]
      rfl

/-! ### The whole array -/

theorem selects_whole (shape : List Nat) :
    ∃ axes, Selects shape [] axes ∧
      Selection.along shape axes = ⟨List.range (shapeSize shape), shape⟩ := by
  induction shape with
  | nil => exact ⟨[], .nil, rfl⟩
  | cons extent shape ih =>
    obtain ⟨axes, selects, along⟩ := ih
    refine ⟨_, .whole selects, ?_⟩
    rw [Selection.along_kept, along, List.length_range, shapeSize_cons, range_mul]
    rfl

theorem map_element_range (a : NdArray) :
    (List.range a.elements.length).map a.element = a.elements := by
  refine List.ext_getElem (by rw [List.length_map, List.length_range]) fun offset _ bound => ?_
  rw [List.getElem_map, List.getElem_range, NdArray.element, List.getD_eq_getElem _ _ bound]

theorem WellFormed.get_nil (h : a.WellFormed) : a.get [] = .ok (.array a) := by
  obtain ⟨axes, selects, along⟩ := selects_whole a.type.shape
  have filled : a.type.shape ≠ [] := List.ne_nil_of_length_pos h.dimensions.1
  have elements := a.map_element_range
  rw [h.count, ArrayType.count] at elements
  refine get_eq_ok_iff.mpr ⟨axes, selects, ?_⟩
  rw [along, gather_of_ne_nil filled, elements]

/-! ### Brackets -/

theorem WellFormed.get_append (h : a.WellFormed) (singles : ∀ spec ∈ first, spec.isSingle = true)
    (short : first.length < a.type.shape.length)
    (enough : first.length + rest.length ≤ a.type.shape.length) :
    a.get (first ++ rest) = (do (← a.get first).bracket rest) := by
  induction first generalizing a with
  | nil =>
    rw [h.get_nil]
    rfl
  | cons spec first ih =>
    obtain ⟨single, others⟩ := List.forall_mem_cons.mp singles
    cases spec with
    | set | range => cases single
    | single index =>
      cases outer : a.type.shape with
      | nil =>
        rw [outer] at short
        cases short
      | cons extent shape =>
        rw [outer, List.length_cons, List.length_cons] at short enough
        have filled : shape ≠ [] := by
          rintro rfl
          exact absurd (Nat.lt_of_succ_lt_succ short) (Nat.not_lt_zero _)
        rw [List.cons_append, get_single_cons outer (by rw [List.length_append]; omega),
          get_single_cons outer (by omega), bind_assoc]
        cases resolved : resolveIndex index extent with
        | error e => rfl
        | ok position =>
          have inner : (a.row position).type.shape = shape := congrArg List.tail outer
          have rowWell := h.row outer filled (resolveIndex_lt resolved)
          exact ih rowWell others (by rw [inner]; omega) (by rw [inner]; omega)

theorem WellFormed.array_of_get (h : a.WellFormed) {part : Indexed}
    (singles : ∀ spec ∈ first, spec.isSingle = true) (short : first.length < a.type.shape.length)
    (read : a.get first = .ok part) :
    ∃ b, part = .array b ∧ b.WellFormed ∧ b.type.shape = a.type.shape.drop first.length := by
  obtain ⟨axes, selects, rfl⟩ := get_eq_ok_iff.mp read
  have left := selects.extents_of_singles singles
  have filled : extents axes ≠ [] := by
    rw [left]
    exact List.ne_nil_of_length_pos (by rw [List.length_drop]; omega)
  rw [gather_of_ne_nil filled] at read ⊢
  exact ⟨_, rfl, h.of_get read, left⟩

theorem getChain_cons (a : NdArray) (bracket : List IndexSpec) (brackets : List (List IndexSpec)) :
    a.getChain (bracket :: brackets) =
      (do brackets.foldlM Indexed.bracket (← a.get bracket)) := rfl

theorem WellFormed.getChain_concat (h : a.WellFormed) {front : List (List IndexSpec)}
    {last : List IndexSpec} (filled : ∀ bracket ∈ front ++ [last], bracket ≠ [])
    (singles : ∀ bracket ∈ front, ∀ spec ∈ bracket, spec.isSingle = true)
    (enough : (front ++ [last]).flatten.length ≤ a.type.shape.length) :
    a.getChain (front ++ [last]) = a.get (front ++ [last]).flatten := by
  induction front generalizing a with
  | nil =>
    rw [List.nil_append, List.flatten_singleton, getChain_cons]
    exact bind_pure (a.get last)
  | cons bracket front ih =>
    obtain ⟨here, later⟩ := List.forall_mem_cons.mp singles
    have rest := (List.forall_mem_cons.mp filled).2
    rw [List.cons_append, List.flatten_cons, List.length_append] at enough
    have remains : 0 < (front ++ [last]).flatten.length := by
      have one := List.length_pos_of_ne_nil (rest last (by simp))
      rw [List.flatten_append, List.length_append, List.flatten_singleton]
      omega
    have short : bracket.length < a.type.shape.length := by omega
    rw [List.cons_append, List.flatten_cons, h.get_append here short enough, getChain_cons]
    cases read : a.get bracket with
    | error e => rfl
    | ok part =>
      obtain ⟨b, rfl, wellFormed, left⟩ := h.array_of_get here short read
      exact ih wellFormed rest later (by rw [left, List.length_drop]; omega)

theorem WellFormed.getChain_eq_get (h : a.WellFormed) {brackets : List (List IndexSpec)}
    (filled : ∀ bracket ∈ brackets, bracket ≠ [])
    (singles : ∀ bracket ∈ brackets.dropLast, ∀ spec ∈ bracket, spec.isSingle = true)
    (enough : brackets.flatten.length ≤ a.type.shape.length) :
    a.getChain brackets = a.get brackets.flatten := by
  obtain rfl | ⟨front, last, rfl⟩ := brackets.eq_nil_or_concat
  · exact h.get_nil.symm
  · rw [List.concat_eq_append] at filled singles enough ⊢
    rw [List.dropLast_concat] at singles
    exact h.getChain_concat filled singles enough

theorem bracket_scalar (x : Scalar) (spec : IndexSpec) :
    (Indexed.scalar x).bracket [spec] = (x.slice spec).map .bits := by
  change (do pure (Indexed.bits (← x.slice spec))) = _
  cases x.slice spec <;> rfl

/-- Brackets of single indices before a last bracket read as one subscript does, with
the same fault if there is one. A bracket after a single index for each dimension
reads bits of the element. -/
theorem getChain_joins (a : NdArray) (h : a.WellFormed) :
    (∀ brackets : List (List IndexSpec), (∀ bracket ∈ brackets, bracket ≠ []) →
      (∀ bracket ∈ brackets.dropLast, ∀ spec ∈ bracket, spec.isSingle = true) →
      brackets.flatten.length ≤ a.type.shape.length →
      a.getChain brackets = a.get brackets.flatten) ∧
    (∀ brackets : List (List IndexSpec), (∀ bracket ∈ brackets, bracket ≠ []) →
      (∀ spec ∈ brackets.flatten, spec.isSingle = true) →
      brackets.flatten.length = a.type.shape.length →
      ∀ x, a.get brackets.flatten = .ok (.scalar x) →
        ∀ spec, a.getChain (brackets ++ [[spec]]) = (x.slice spec).map .bits) := by
  refine ⟨fun brackets => h.getChain_eq_get, fun brackets filled singles count x element spec => ?_⟩
  have front : ∀ bracket ∈ brackets.dropLast, ∀ spec ∈ bracket, spec.isSingle = true := by
    intro bracket member spec inside
    have within : bracket ∈ brackets := (List.dropLast_sublist _).subset member
    exact singles spec (List.mem_flatten.mpr ⟨bracket, within, inside⟩)
  have reached := h.getChain_eq_get filled front (Nat.le_of_eq count)
  rw [element, getChain] at reached
  rw [getChain, List.foldlM_append, reached, ← bracket_scalar]
  exact bind_pure ((Indexed.scalar x).bracket [spec])

theorem getChain_joins_of_bits :
    let a : NdArray := ⟨⟨.uint 4, [2, 3]⟩, [0, 1, 2, 3, 4, 5].map (.uint · 4)⟩
    let brackets : List (List IndexSpec) := [[.single 1], [.single (-2)]]
    a.WellFormed ∧ a.getChain brackets = a.get brackets.flatten ∧
      a.getChain (brackets ++ [[.range (some 2) none none]]) = .ok (.bits ⟨[true, false]⟩) := by
  intro a brackets
  have wellFormed : a.WellFormed := ⟨by decide, by decide, rfl, by decide⟩
  have filled : ∀ bracket ∈ brackets, bracket ≠ [] := by decide
  have singles : ∀ spec ∈ brackets.flatten, spec.isSingle = true := by decide
  have element : a.get brackets.flatten = .ok (.scalar (.uint 4 4)) := by decide
  obtain ⟨joins, bits⟩ := getChain_joins a wellFormed
  refine ⟨wellFormed, joins brackets filled (by decide) (by decide), ?_⟩
  rw [bits brackets filled singles rfl _ element]
  decide

end NdArray

end QasmValues
