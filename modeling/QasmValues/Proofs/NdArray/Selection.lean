import Mathlib.Data.List.GetD
import QasmValues.NdArray.Selection
import QasmValues.Proofs.Index
import QasmValues.Proofs.NdArray.RowMajor

/-! What a subscript selects.
Along each dimension a subscript takes an axis: one position, which drops the
dimension, or a list of positions, which keeps it. A place of the part is then
located in the array axis by axis, and the selection lists the numbers of the
located places in the row-major order of the part. -/

namespace QasmValues

/-- What a subscript takes of one dimension. -/
inductive Axis where
  | dropped (position : Nat)
  | kept (positions : List Nat)
  deriving DecidableEq, Repr

namespace Axis

def positions : Axis → List Nat
  | dropped position => [position]
  | kept positions => positions

def extents : List Axis → List Nat
  | [] => []
  | dropped _ :: axes => extents axes
  | kept positions :: axes => positions.length :: extents axes

/-- The multi-index in the array of a place of the part. -/
def locate : List Axis → List Nat → List Nat
  | dropped position :: axes, index => position :: locate axes index
  | kept positions :: axes, i :: index => positions.getD i 0 :: locate axes index
  | _, _ => []

end Axis

open Axis

variable {shape index other : List Nat} {subscript : List IndexSpec} {axes : List Axis} {e : Fault}

/-- The axes that a subscript takes of a shape. What it leaves out is taken whole. -/
inductive Selects : (shape : List Nat) → (subscript : List IndexSpec) → List Axis → Prop where
  | nil : Selects [] [] []
  | single {shape : List Nat} {subscript : List IndexSpec} {axes : List Axis}
      {extent position : Nat} {index : Int64} (resolved : resolveIndex index extent = .ok position)
      (rest : Selects shape subscript axes) :
      Selects (extent :: shape) (.single index :: subscript) (dropped position :: axes)
  | several {shape : List Nat} {subscript : List IndexSpec} {axes : List Axis} {extent : Nat}
      {positions : List Nat} {spec : IndexSpec} (many : spec.isSingle = false)
      (resolved : spec.resolve extent = .ok positions) (rest : Selects shape subscript axes) :
      Selects (extent :: shape) (spec :: subscript) (kept positions :: axes)
  | whole {shape : List Nat} {axes : List Axis} {extent : Nat} (rest : Selects shape [] axes) :
      Selects (extent :: shape) [] (kept (List.range extent) :: axes)

/-- The first index expression that does not resolve, outermost first, has this fault. -/
inductive Fails : (shape : List Nat) → (subscript : List IndexSpec) → Fault → Prop where
  | here {shape : List Nat} {subscript : List IndexSpec} {extent : Nat} {spec : IndexSpec}
      {e : Fault} (failed : spec.resolve extent = .error e) :
      Fails (extent :: shape) (spec :: subscript) e
  | further {shape : List Nat} {subscript : List IndexSpec} {extent : Nat} {positions : List Nat}
      {spec : IndexSpec} {e : Fault} (resolved : spec.resolve extent = .ok positions)
      (rest : Fails shape subscript e) : Fails (extent :: shape) (spec :: subscript) e

theorem selects_or_fails (enough : subscript.length ≤ shape.length) :
    (∃ axes, Selects shape subscript axes) ∨ ∃ e, Fails shape subscript e := by
  induction shape generalizing subscript with
  | nil =>
    cases List.length_eq_zero_iff.mp (Nat.le_zero.mp enough)
    exact .inl ⟨[], .nil⟩
  | cons extent shape ih =>
    cases subscript with
    | nil =>
      have short : ([] : List IndexSpec).length ≤ shape.length := Nat.zero_le _
      obtain ⟨axes, rest⟩ | ⟨e, failed⟩ := ih short
      · exact .inl ⟨_, .whole rest⟩
      · cases failed
    | cons spec subscript =>
      cases resolved : spec.resolve extent with
      | error e => exact .inr ⟨e, .here resolved⟩
      | ok positions =>
        obtain ⟨axes, rest⟩ | ⟨e, failed⟩ := ih (Nat.le_of_succ_le_succ enough)
        · cases spec with
          | single index =>
            obtain ⟨position, found, -⟩ := bind_eq_ok_iff.mp resolved
            exact .inl ⟨_, .single found rest⟩
          | set | range => exact .inl ⟨_, .several rfl resolved rest⟩
        · exact .inr ⟨e, .further resolved failed⟩

namespace Selects

theorem length_le (h : Selects shape subscript axes) : subscript.length ≤ shape.length := by
  induction h with
  | nil => exact Nat.le_refl _
  | single _ _ ih | several _ _ _ ih => exact Nat.succ_le_succ ih
  | whole => exact Nat.zero_le _

theorem extents_eq_nil_iff (h : Selects shape subscript axes) :
    extents axes = [] ↔
      subscript.length = shape.length ∧ ∀ spec ∈ subscript, spec.isSingle = true := by
  induction h with
  | nil => simp [extents]
  | single _ _ ih => simp [extents, ih, IndexSpec.isSingle]
  | several many _ _ _ => simp [extents, many]
  | whole _ _ => simp [extents]

theorem length_extents_le (h : Selects shape subscript axes) :
    (extents axes).length ≤ shape.length := by
  induction h with
  | nil => exact Nat.le_refl _
  | single _ _ ih => exact Nat.le_succ_of_le ih
  | several _ _ _ ih | whole _ ih => exact Nat.succ_le_succ ih

theorem positions_lt (h : Selects shape subscript axes) :
    List.Forall₂ (fun extent axis => ∀ position ∈ axis.positions, position < extent)
      shape axes := by
  induction h with
  | nil => exact .nil
  | single resolved _ ih =>
    exact .cons (List.forall_mem_singleton.mpr (resolveIndex_lt resolved)) ih
  | several _ resolved _ ih => exact .cons (IndexSpec.resolve_lt resolved) ih
  | whole _ ih => exact .cons (fun _ => List.mem_range.mp) ih

theorem inShape_locate (h : Selects shape subscript axes) (inside : InShape (extents axes) index) :
    InShape shape (locate axes index) := by
  have bound := h.positions_lt
  clear h
  induction bound generalizing index with
  | nil => exact .nil
  | @cons extent axis shape axes below _ ih =>
    cases axis with
    | dropped position => exact .cons (below position List.mem_cons_self) (ih inside)
    | kept positions =>
      obtain _ | @⟨i, _, index, _, here, rest⟩ := inside
      refine .cons (below _ ?_) (ih rest)
      rw [List.getD_eq_getElem _ _ here]
      exact List.getElem_mem here

end Selects

namespace Selection

/-- The selection along axes: where each place of the part stands in the array. -/
def along (shape : List Nat) (axes : List Axis) : Selection :=
  ⟨(indices (extents axes)).map fun index => rowMajor shape (locate axes index), extents axes⟩

theorem map_getD_range (positions : List Nat) :
    (List.range positions.length).map (positions.getD · 0) = positions :=
  List.ext_getElem (by simp) fun i _ h => by simp [h]

theorem along_dropped (extent position : Nat) :
    along (extent :: shape) (dropped position :: axes) =
      (along shape axes).within [position] [] (shapeSize shape) := by
  simp [along, within, extents, locate, rowMajor, Function.comp_def]

theorem along_kept (extent : Nat) (positions : List Nat) :
    along (extent :: shape) (kept positions :: axes) =
      (along shape axes).within positions [positions.length] (shapeSize shape) := by
  have entries := congrArg (List.flatMap fun position =>
    (along shape axes).offsets.map (position * shapeSize shape + ·)) (map_getD_range positions)
  rw [List.flatMap_map] at entries
  rw [along, within, ← entries]
  simp [along, extents, indices, locate, rowMajor, List.map_flatMap, Function.comp_def]

theorem resolve_of_selects (h : Selects shape subscript axes) :
    resolve shape subscript = .ok (along shape axes) := by
  induction h with
  | nil => rfl
  | single resolved _ ih =>
    rw [along_dropped, resolve, IndexSpec.resolve, resolved, ih]
    rfl
  | @several _ _ _ _ positions spec many resolved _ ih =>
    have extent : keptExtent spec positions = [positions.length] := by simp [keptExtent, many]
    rw [along_kept, resolve, resolved, ih, ← extent]
    rfl
  | whole _ ih =>
    rw [along_kept, resolve, ih, List.length_range]
    rfl

theorem resolve_of_fails (h : Fails shape subscript e) : resolve shape subscript = .error e := by
  induction h with
  | here failed =>
    rw [resolve, failed]
    rfl
  | further resolved _ ih =>
    rw [resolve, resolved, ih]
    rfl

theorem ofSubscript_of_excess (h : shape.length < subscript.length) :
    ofSubscript shape subscript = .error (.excessIndices shape.length subscript.length) :=
  if_pos h

theorem ofSubscript_of_fails (enough : subscript.length ≤ shape.length)
    (h : Fails shape subscript e) : ofSubscript shape subscript = .error e := by
  rw [ofSubscript, if_neg (Nat.not_lt.mpr enough), resolve_of_fails h]

theorem ofSubscript_of_selects (h : Selects shape subscript axes) :
    ofSubscript shape subscript = .ok (along shape axes) := by
  rw [ofSubscript, if_neg (Nat.not_lt.mpr h.length_le), resolve_of_selects h]

theorem ofSubscript_eq_ok_iff {s : Selection} :
    ofSubscript shape subscript = .ok s ↔
      ∃ axes, Selects shape subscript axes ∧ s = along shape axes := by
  constructor
  · intro h
    by_cases excess : shape.length < subscript.length
    · rw [ofSubscript_of_excess excess] at h
      cases h
    · have enough := Nat.not_lt.mp excess
      obtain ⟨axes, found⟩ | ⟨e, failed⟩ := selects_or_fails enough
      · rw [ofSubscript_of_selects found] at h
        cases h
        exact ⟨axes, found, rfl⟩
      · rw [ofSubscript_of_fails enough failed] at h
        cases h
  · rintro ⟨axes, found, rfl⟩
    exact ofSubscript_of_selects found

theorem length_along : (along shape axes).offsets.length = shapeSize (extents axes) := by
  rw [along, List.length_map, length_indices]

theorem length_offsets {s : Selection} (selected : ofSubscript shape subscript = .ok s) :
    s.offsets.length = shapeSize s.shape := by
  obtain ⟨axes, -, rfl⟩ := ofSubscript_eq_ok_iff.mp selected
  exact length_along

theorem getElem?_along (inside : InShape (extents axes) index) :
    (along shape axes).offsets[rowMajor (extents axes) index]? =
      some (rowMajor shape (locate axes index)) := by
  rw [along, List.getElem?_map, getElem?_indices inside, Option.map_some]

theorem offsets_lt (h : Selects shape subscript axes) :
    ∀ offset ∈ (along shape axes).offsets, offset < shapeSize shape := by
  intro offset member
  obtain ⟨index, place, rfl⟩ := List.mem_map.mp member
  exact rowMajor_lt (h.inShape_locate (mem_indices.mp place))

end Selection

end QasmValues
