import QasmValues.Proofs.Program.Ownership
import QasmValues.Proofs.Scalar.Bits

/-! The types of bound scalars.
A scalar enters a program by a conversion, which checks the width of its target, and
no later operation changes its type. So whatever a program has run, the scalars that
it binds are of types that have values. -/

namespace QasmValues

namespace Angle

theorem width_of_resize {a b : Angle} {width : Nat} {narrowing : Narrowing}
    (h : a.resize width narrowing = .ok b) : (ScalarType.angle width).Valid ∧ b.width = width := by
  obtain ⟨valid, h⟩ := ScalarType.validate_bind_eq_ok_iff.mp h
  cases h
  exact ⟨valid, rfl⟩

end Angle

namespace Program

variable {p : Program}

theorem type_of_convert {v r : Scalar} {type : ScalarType} (h : p.convert v type = .ok r) :
    type.Valid ∧ r.type = type := by
  unfold convert at h
  split at h
  · obtain ⟨a, resized, h⟩ := bind_eq_ok_iff.mp h
    cases h
    obtain ⟨valid, width⟩ := Angle.width_of_resize resized
    exact ⟨valid, congrArg ScalarType.angle width⟩
  · exact Scalar.type_of_cast h

theorem type_of_startScalar {type : ScalarType} {initial : Option Scalar} {v : Scalar}
    (h : p.startScalar type initial = .ok v) : type.Valid ∧ v.type = type := by
  cases initial with
  | none => exact Scalar.type_of_zero h
  | some v => exact type_of_convert h

end Program

def Binding.Typed : Binding → Prop
  | .scalar v => v.type.Valid
  | .array _ | .qubits _ | .bits _ | .qubitAlias _ | .bitAlias _ => True

namespace Program

variable {p q : Program} {op : Operation} {declared : Option Binding} {name : String}
variable {old new : Binding}

def Typed (p : Program) : Prop := Scopes.All Binding.Typed p.scopes.frames

theorem Rebinds.typed_old (h : p.Rebinds name old new q) (typed : p.Typed) : old.Typed :=
  h.holds_old typed

theorem Step.typed (h : Step p op declared q) (typed : p.Typed) : q.Typed := by
  cases h with
  | enterScope => exact typed.enter
  | exitScope => exact typed.exit
  | declareQubits _ _ bound => exact bound.all typed trivial
  | declareBits _ _ _ bound => exact bound.all typed trivial
  | declareScalar start bound =>
    obtain ⟨valid, type⟩ := type_of_startScalar start
    refine bound.all typed ?_
    rw [Binding.Typed, type]
    exact valid
  | declareArray _ bound => exact bound.all typed trivial
  | aliasQubits bound | aliasBits bound => exact bound.all typed trivial
  | assignScalar converted bound =>
    obtain ⟨valid, type⟩ := type_of_convert converted
    refine bound.all typed ?_
    rw [Binding.Typed, type]
    exact valid
  | writeRegister => exact typed
  | writeScalar written bound =>
    have valid := bound.typed_old typed
    obtain ⟨_, _, -, -, type, -⟩ := Scalar.bits_of_setSlice valid written
    refine bound.all typed ?_
    rw [Binding.Typed, type]
    exact valid
  | assignArray _ bound => exact bound.all typed trivial

theorem Typed.after (typed : p.Typed) (op : Operation) : (op.after p).Typed :=
  op.after_of_step typed fun _ step => step.typed typed

theorem Typed.run (typed : p.Typed) (ops : List Operation) : (run p ops).Typed :=
  run_of_after typed fun op _ _ typed => typed.after op

theorem typed_initial (policy : Policy) : (initial policy).Typed := by
  simp [Typed, Scopes.All, initial, Scopes.initial, Scope.empty]

end Program

end QasmValues
