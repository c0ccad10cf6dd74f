import QasmValues.Policy
import QasmValues.Scalar.Cast
import QasmValues.Scope

/-! The classical state of a program and what can be read from it.
The state is a policy, which never changes, the storage and the open scopes.
Constants can be read like scalars. -/

namespace QasmValues

structure Program where
  policy : Policy
  storage : Storage
  scopes : Scopes
  deriving DecidableEq, Repr

namespace Program

def initial (policy : Policy) : Program := ⟨policy, .empty, .initial⟩

def scalar (p : Program) (name : String) : Except Fault Scalar :=
  match p.scopes.lookup? name with
  | some (.scalar v) => .ok v
  | some other => .error (.bindingMismatch .scalar other.kind)
  | none =>
    match Constant.ofName? name with
    | some c => .ok c.scalar
    | none => .error (.undefined name)

def qubits (p : Program) (name : String) : Except Fault QubitRegister := do
  match ← p.scopes.lookup name with
  | .qubits r | .qubitAlias r => pure r
  | other => .error (.bindingMismatch .qubits other.kind)

def bits (p : Program) (name : String) : Except Fault BitRegister := do
  match ← p.scopes.lookup name with
  | .bits r | .bitAlias r => pure r
  | other => .error (.bindingMismatch .bits other.kind)

def array (p : Program) (name : String) : Except Fault NdArray := do
  match ← p.scopes.lookup name with
  | .array a => pure a
  | other => .error (.bindingMismatch .array other.kind)

def resizeAngle (p : Program) (a : Angle) (width : Nat) : Except Fault Angle :=
  a.resize width p.policy.narrowing

/-- The conversion of assignments and declarations: an angle is resized by the
policy and everything else is cast. -/
def convert (p : Program) (v : Scalar) (type : ScalarType) : Except Fault Scalar :=
  match v, type with
  | .angle a, .angle w => do pure (.angle (← p.resizeAngle a w))
  | v, type => v.cast type

def readBits (p : Program) (name : String) (spec : IndexSpec) : Except Fault Bits := do
  match ← p.scopes.lookup name with
  | .bits r | .bitAlias r => r.readSlice p.storage spec
  | .scalar v => v.slice spec
  | other => .error (.bindingNotBitIndexable other.kind)

def readArray (p : Program) (name : String) (subscript : List IndexSpec) :
    Except Fault Indexed := do
  (← p.array name).get subscript

def appendArrays (p : Program) (left right : String) : Except Fault NdArray := do
  if left = right ∧ p.policy.selfConcat = .forbid then .error .selfConcatenation
  else
    let a ← p.array left
    a.append (← p.array right)

end Program

end QasmValues
