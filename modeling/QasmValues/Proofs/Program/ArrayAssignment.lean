import QasmValues.Proofs.NdArray.Assignment
import QasmValues.Proofs.Program.Step

/-! Assignment to the array that a name is bound to.
The array is taken from the program, assigned to and bound again, and a fault of the
assignment comes before anything is bound. -/

namespace QasmValues

open Axis

namespace Program

variable {p : Program} {name : String} {a : NdArray}

theorem Action.outcome_assignArray (found : p.array name = .ok a) (subscript : List IndexSpec)
    (value : Indexed) :
    (assignArray name subscript value).outcome p =
      match a.assign subscript value with
      | .ok b => (.ok (), { p with scopes := ⟨Scopes.replaceIn name (.array b) p.scopes.frames⟩ })
      | .error e => (.error e, p) := by
  have bound := Scopes.lookup_eq_ok_iff.mp (lookup_of_array found)
  unfold assignArray
  simp only [outcome_bind, outcome_get, outcome_ofExcept, found]
  cases a.assign subscript value with
  | error e => rfl
  | ok b =>
    have replaced := (Scopes.replace_eq_ok_iff (b := .array b)).mpr ⟨⟨_, bound⟩, rfl⟩
    dsimp only
    rw [outcome_rebind, replaced]

end Program

end QasmValues
