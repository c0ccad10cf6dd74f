import QasmValues.Proofs.NdArray.View
import QasmValues.Proofs.Program.Typing

/-! What a declaration fixes.
A declaration fixes the kind of a binding, the type of a scalar or an array, and what
a register or an alias refers to. An operation either shifts the scopes, by opening or
closing a block or by binding a new name in the innermost one, or it overwrites content
and keeps every form. -/

namespace QasmValues

/-- What a declaration fixes of a binding. Only the content of a scalar and of an array is
left open. -/
inductive Form where
  | scalar (type : ScalarType)
  | array (type : ArrayType)
  | qubits (register : QubitRegister)
  | bits (register : BitRegister)
  | qubitAlias (register : QubitRegister)
  | bitAlias (register : BitRegister)
  deriving DecidableEq, Repr

def Binding.form : Binding → Form
  | .scalar v => .scalar v.type
  | .array a => .array a.type
  | .qubits r => .qubits r
  | .bits r => .bits r
  | .qubitAlias r => .qubitAlias r
  | .bitAlias r => .bitAlias r

namespace Scope

def forms (s : Scope) : List (String × Form) :=
  s.symbols.map fun symbol => (symbol.1, symbol.2.form)

/-- What declarations fix of a scope. -/
def outline (s : Scope) : ScopeKind × List (String × Form) := (s.kind, s.forms)

end Scope

namespace Scopes

variable {name : String} {old new : Binding} {frames updated : List Scope}

/-- What declarations fix of the open scopes, innermost first. -/
def outline (s : Scopes) : List (ScopeKind × List (String × Form)) := s.frames.map Scope.outline

theorem Updates.outline (h : Updates name old new frames updated) (same : new.form = old.form) :
    updated.map Scope.outline = frames.map Scope.outline := by
  induction h with
  | here alone => simp [Scope.outline, Scope.forms, same]
  | further absent rest ih => rw [List.map_cons, List.map_cons, ih]

/-- A block is opened or closed, or a name that is not reserved is bound in the innermost
scope, or nothing happens. -/
inductive Shift : List Scope → List Scope → Prop where
  | none {frames : List Scope} : Shift frames frames
  | enter {frames : List Scope} : Shift frames (.empty .block :: frames)
  | exit {scope outer : Scope} {rest : List Scope} : Shift (scope :: outer :: rest) (outer :: rest)
  | bind {scope : Scope} {outer : List Scope} {name : String} {b : Binding}
      (unreserved : isConstant name = false) : Shift (scope :: outer) (scope.insert name b :: outer)

theorem shift_exit (s : Scopes) : Shift s.frames s.exit.2.frames := by
  obtain ⟨frames⟩ := s
  match frames with
  | [] | [_] => exact .none
  | _ :: _ :: _ => exact .exit

end Scopes

namespace Program

variable {p q : Program} {op : Operation} {declared : Option Binding} {name : String}
variable {b old new : Binding}

def Operation.overwrites : Operation → Bool
  | assignScalar .. | writeBits .. | assignArray .. => true
  | enterScope | exitScope | declareQubits .. | declareBits .. | declareScalar ..
  | declareArray .. | aliasQubits .. | aliasBits .. => false

namespace Binds

theorem shift (h : p.Binds name b q) : Scopes.Shift p.scopes.frames q.scopes.frames := by
  obtain ⟨unreserved, frames, -, -⟩ := h
  rw [frames]
  exact .bind unreserved

theorem policy (h : p.Binds name b q) : q.policy = p.policy := by
  cases h
  rfl

theorem depth_eq_zero (h : p.Binds name b q) (only : b.globalOnly = true) :
    p.scopes.depth = 0 := by
  obtain ⟨-, frames, -, allowed⟩ := h
  rw [Scopes.depth, frames, allowed only]
  rfl

end Binds

namespace Rebinds

theorem outline (h : p.Rebinds name old new q) (nested : Scopes.Nested p.scopes.frames)
    (same : new.form = old.form) : q.scopes.outline = p.scopes.outline := by
  obtain ⟨found⟩ := h
  exact (Scopes.updates_replaceIn nested.distinct found).outline same

theorem policy (h : p.Rebinds name old new q) : q.policy = p.policy := by
  cases h
  rfl

end Rebinds

namespace Step

theorem policy (h : Step p op declared q) : q.policy = p.policy := by
  cases h with
  | enterScope | exitScope | writeRegister => rfl
  | declareQubits _ _ bound | declareBits _ _ _ bound => exact bound.policy
  | declareScalar _ bound | declareArray _ bound => exact bound.policy
  | aliasQubits bound | aliasBits bound => exact bound.policy
  | assignScalar _ bound | writeScalar _ bound | assignArray _ bound => exact bound.policy

theorem shift (h : Step p op declared q) (other : op.overwrites = false) :
    Scopes.Shift p.scopes.frames q.scopes.frames := by
  cases h with
  | enterScope => exact .enter
  | exitScope => exact Scopes.shift_exit p.scopes
  | declareQubits _ _ bound | declareBits _ _ _ bound => exact bound.shift
  | declareScalar _ bound | declareArray _ bound => exact bound.shift
  | aliasQubits bound | aliasBits bound => exact bound.shift
  | assignScalar | writeRegister | writeScalar | assignArray => cases other

/-- An assignment or a write keeps every declared type: a value is converted to the type of
the one it replaces, and so are bits written to it. -/
theorem outline (h : Step p op declared q) (overwrites : op.overwrites = true)
    (nested : Scopes.Nested p.scopes.frames) (typed : p.Typed) :
    q.scopes.outline = p.scopes.outline := by
  cases h with
  | assignScalar converted bound =>
    exact bound.outline nested (congrArg Form.scalar (type_of_convert converted).2)
  | writeRegister => rfl
  | writeScalar written bound =>
    have valid := bound.typed_old typed
    obtain ⟨_, _, -, -, type, -⟩ := Scalar.bits_of_setSlice valid written
    exact bound.outline nested (congrArg Form.scalar type)
  | assignArray assigned bound =>
    exact bound.outline nested (congrArg Form.array (NdArray.type_of_assign assigned))
  | enterScope | exitScope | declareQubits | declareBits | declareScalar | declareArray
  | aliasQubits | aliasBits => cases overwrites

end Step

namespace Operation

theorem shift_after (other : op.overwrites = false) :
    Scopes.Shift p.scopes.frames (op.after p).scopes.frames := by
  obtain step | ⟨-, same⟩ := op.step_or_unchanged p
  · exact step.shift other
  · rw [same]
    exact .none

theorem outline_after (overwrites : op.overwrites = true) (nested : Scopes.Nested p.scopes.frames)
    (typed : p.Typed) : (op.after p).scopes.outline = p.scopes.outline := by
  obtain step | ⟨-, same⟩ := op.step_or_unchanged p
  · exact step.outline overwrites nested typed
  · rw [same]

theorem policy_after : (op.after p).policy = p.policy := by
  obtain step | ⟨-, same⟩ := op.step_or_unchanged p
  · exact step.policy
  · rw [same]

end Operation

end Program

end QasmValues
