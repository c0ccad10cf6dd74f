import QasmValues.Bits
import QasmValues.Proofs.Index
import QasmValues.Proofs.Overwrite

/-! Parts of bit strings, read and overwritten at the positions of an index expression. -/

namespace QasmValues.Bits

variable {b c v : Bits} {spec : IndexSpec}

theorem length_getD_zeros {initial : Option Bits} {size : Nat}
    (length : ∀ value, initial = some value → value.length = size) :
    (initial.getD (zeros size)).length = size := by
  cases initial with
  | none => exact length_zeros size
  | some value => exact length value rfl

theorem slice_eq_ok_iff :
    b.slice spec = .ok c ↔ ∃ positions, spec.resolve b.length = .ok positions ∧
      c = ⟨positions.map (b.toList.getD · false)⟩ := by
  simp only [slice, bind_eq_ok_iff, pure_eq_ok_iff, eq_comm (a := c)]

theorem slice_full (short : b.length ≤ maxLength) : b.slice .full = .ok b := by
  refine slice_eq_ok_iff.mpr ⟨_, IndexSpec.resolve_full short, congrArg Bits.mk ?_⟩
  exact List.ext_getElem (by simp [Bits.length]) fun i inside _ => by simp [inside]

theorem slice_eq_error_iff {e : Fault} :
    b.slice spec = .error e ↔ spec.resolve b.length = .error e := by
  rw [slice]
  cases spec.resolve b.length <;> simp [bind, Except.bind, pure, Except.pure]

theorem setSlice_eq_ok_iff :
    b.setSlice spec v = .ok c ↔ ∃ positions, spec.resolve b.length = .ok positions ∧
      positions.length = v.length ∧ c = ⟨overwrite b.toList (positions.zip v.toList)⟩ := by
  rw [setSlice, bind_eq_ok_iff]
  refine exists_congr fun positions => and_congr_right fun _ => ?_
  split
  · rename_i same
    rw [pure_eq_ok_iff, and_iff_right same]
    exact eq_comm
  · rename_i other
    simp [other]

theorem length_setSlice (h : b.setSlice spec v = .ok c) : c.length = b.length := by
  obtain ⟨positions, -, -, rfl⟩ := setSlice_eq_ok_iff.mp h
  exact length_overwrite _ _

theorem slice_of_setSlice {positions : List Nat} (h : b.setSlice spec v = .ok c)
    (resolved : spec.resolve b.length = .ok positions) (distinct : positions.Nodup) :
    c.slice spec = .ok v := by
  have length := length_setSlice h
  obtain ⟨_, again, same, rfl⟩ := setSlice_eq_ok_iff.mp h
  rw [resolved] at again
  cases again
  have inside := IndexSpec.resolve_lt resolved
  refine slice_eq_ok_iff.mpr ⟨positions, length ▸ resolved, ?_⟩
  rw [map_getD_overwrite_zip false distinct inside same]

end QasmValues.Bits
