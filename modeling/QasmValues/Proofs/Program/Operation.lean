import QasmValues.Proofs.Program.Declaration

/-! Runs of operations.
An operation that fails leaves the state as it was: every check comes before the
first write, and what is written after an allocation cannot fail. -/

namespace QasmValues

namespace Program

inductive Operation where
  | enterScope
  | exitScope
  | declareQubits (name : String) (size : Nat)
  | declareBits (name : String) (size : Nat) (initial : Option Bits)
  | declareScalar (name : String) (type : ScalarType) (initial : Option Scalar)
  | declareArray (name : String) (type : ArrayType) (elements : Option (List Scalar))
  | aliasQubits (name : String) (target : QubitRegister)
  | aliasBits (name : String) (target : BitRegister)
  | assignScalar (name : String) (value : Scalar)
  | writeBits (name : String) (spec : IndexSpec) (value : Bits)
  | assignArray (name : String) (subscript : List IndexSpec) (value : Indexed)

namespace Operation

/-- Perform an operation and return the register that it declares, if it declares one. -/
def perform : Operation → Action (Option Binding)
  | enterScope => do Action.enterScope; pure none
  | exitScope => do Action.exitScope; pure none
  | declareQubits name size => do pure (some (.qubits (← Action.declareQubits name size)))
  | declareBits name size initial => do
    pure (some (.bits (← Action.declareBits name size initial)))
  | declareScalar name type initial => do
    let _ ← Action.declareScalar name type initial
    pure none
  | declareArray name type elements => do Action.declareArray name type elements; pure none
  | aliasQubits name target => do Action.aliasQubits name target; pure none
  | aliasBits name target => do Action.aliasBits name target; pure none
  | assignScalar name value => do Action.assignScalar name value; pure none
  | writeBits name spec value => do Action.writeBits name spec value; pure none
  | assignArray name subscript value => do Action.assignArray name subscript value; pure none

def after (op : Operation) (p : Program) : Program := (op.perform.outcome p).2

end Operation

/-- The state after some operations, successful or not. -/
def run (p : Program) (ops : List Operation) : Program := ops.foldl (fun p op => op.after p) p

namespace Action

variable {p : Program} {name : String}

theorem atomic_checkRegister_bind {α : Type} {family : Family} {size : Nat} {initial : Option Bits}
    {rest : Unit → Action α}
    (passed : ∀ scope, p.Vacant name scope → size ≠ 0 →
      (∀ value, initial = some value → value.length = size) →
        Atomic (checkRegister name family size initial >>= rest) p) :
    Atomic (checkRegister name family size initial >>= rest) p := by
  by_cases checked : (checkRegister name family size initial).outcome p = (.ok (), p)
  · obtain ⟨filled, length, scope, vacant⟩ := (checkRegister_eq_ok_iff family initial).mp checked
    exact passed scope vacant filled length
  · refine (readonly_checkRegister family initial).atomic_bind fun _ ok => ?_
    exact absurd ok checked

theorem atomic_declareQubits (size : Nat) : Atomic (declareQubits name size) p := by
  refine atomic_checkRegister_bind fun scope vacant filled _ e q failed => ?_
  have run := outcome_declareQubits vacant filled
  rw [declareQubits, failed] at run
  split at run
  · cases run
  · cases run
    rfl

theorem atomic_declareBits (size : Nat) (initial : Option Bits) :
    Atomic (declareBits name size initial) p := by
  refine atomic_checkRegister_bind fun scope vacant filled length e q failed => ?_
  have run := outcome_declareBits vacant filled length
  rw [declareBits, failed] at run
  split at run
  · cases run
  · cases run
    rfl

theorem atomic_declareScalar (type : ScalarType) (initial : Option Scalar) :
    Atomic (declareScalar name type initial) p := by
  refine (readonly_checkFree name).atomic_bind fun _ _ => ?_
  refine readonly_get.atomic_bind fun _ _ => ?_
  refine (readonly_ofExcept _).atomic_bind fun value _ => ?_
  exact (atomic_bindName name (.scalar value)).bind_pure fun _ => value

theorem atomic_declareArray (type : ArrayType) (elements : Option (List Scalar)) :
    Atomic (declareArray name type elements) p := by
  refine (readonly_checkFree name).atomic_bind fun _ _ => ?_
  refine (readonly_checkGlobal name).atomic_bind fun _ _ => ?_
  refine readonly_get.atomic_bind fun _ _ => ?_
  refine (readonly_ofExcept _).atomic_bind fun value _ => ?_
  exact atomic_bindName name (.array value)

theorem atomic_aliasQubits (target : QubitRegister) : Atomic (aliasQubits name target) p :=
  (readonly_checkFree name).atomic_bind fun _ _ => atomic_bindName name _

theorem atomic_aliasBits (target : BitRegister) : Atomic (aliasBits name target) p :=
  (readonly_checkFree name).atomic_bind fun _ _ => atomic_bindName name _

theorem atomic_assignScalar (value : Scalar) : Atomic (assignScalar name value) p := by
  refine readonly_get.atomic_bind fun _ _ => ?_
  refine (readonly_ofExcept _).atomic_bind fun binding _ => ?_
  cases binding with
  | scalar current => exact (readonly_ofExcept _).atomic_bind fun _ _ => atomic_rebind name _
  | array | qubits | bits | qubitAlias | bitAlias => exact atomic_throw _

theorem atomic_writeBits (spec : IndexSpec) (value : Bits) :
    Atomic (writeBits name spec value) p := by
  refine readonly_get.atomic_bind fun _ _ => ?_
  refine (readonly_ofExcept _).atomic_bind fun binding _ => ?_
  cases binding with
  | bits | bitAlias => exact (readonly_ofExcept _).atomic_bind fun _ _ => atomic_modify _
  | scalar current => exact (readonly_ofExcept _).atomic_bind fun _ _ => atomic_rebind name _
  | array | qubits | qubitAlias => exact atomic_throw _

theorem atomic_assignArray (subscript : List IndexSpec) (value : Indexed) :
    Atomic (assignArray name subscript value) p := by
  refine readonly_get.atomic_bind fun _ _ => ?_
  refine (readonly_ofExcept _).atomic_bind fun current _ => ?_
  refine (readonly_ofExcept _).atomic_bind fun new _ => ?_
  exact atomic_rebind name (.array new)

end Action

namespace Operation

theorem atomic_perform (op : Operation) (p : Program) : Action.Atomic op.perform p := by
  cases op with
  | enterScope | exitScope => exact (Action.atomic_modify _).bind_pure fun _ => none
  | declareQubits =>
    exact (Action.atomic_declareQubits _).bind_pure fun r => some (Binding.qubits r)
  | declareBits => exact (Action.atomic_declareBits _ _).bind_pure fun r => some (Binding.bits r)
  | declareScalar => exact (Action.atomic_declareScalar _ _).bind_pure fun _ => none
  | declareArray => exact (Action.atomic_declareArray _ _).bind_pure fun _ => none
  | aliasQubits => exact (Action.atomic_aliasQubits _).bind_pure fun _ => none
  | aliasBits => exact (Action.atomic_aliasBits _).bind_pure fun _ => none
  | assignScalar => exact (Action.atomic_assignScalar _).bind_pure fun _ => none
  | writeBits => exact (Action.atomic_writeBits _ _).bind_pure fun _ => none
  | assignArray => exact (Action.atomic_assignArray _ _).bind_pure fun _ => none

/-- An operation that fails changes nothing, in whatever state it is tried. -/
theorem unchanged_of_fault (op : Operation) (p q : Program) (e : Fault)
    (failed : op.perform.outcome p = (.error e, q)) : q = p :=
  op.atomic_perform p e q failed

theorem unchanged_of_dangling_write :
    let pair : BitRegister := .ofIds [⟨0⟩, ⟨7⟩, ⟨0⟩]
    let start : Program := initial ⟨.truncate, .forbid⟩
    let p := run start [.declareBits "b" 2 none, .aliasBits "pair" pair]
    let op : Operation := .writeBits "pair" .full ⟨[true, true, true]⟩
    ∃ q, op.perform.outcome p = (.error (.indexOutOfRange 7 2), q) ∧ q = p := by
  intro pair start p op
  have failed : op.perform.outcome p = (.error (.indexOutOfRange 7 2), p) := by decide +kernel
  exact ⟨p, failed, unchanged_of_fault op p p _ failed⟩

end Operation

end Program

end QasmValues
