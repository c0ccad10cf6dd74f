import QasmValues.NdArray
import QasmValues.Register

/-! Scopes and the names bound in them.
The outermost scope is the global one, and only there may arrays and registers
be declared; blocks hold scalars and aliases, and closing a block drops them.
A name means what the innermost scope that binds it says. -/

namespace QasmValues

inductive Binding where
  /-- A scalar, whose type is the declared one. -/
  | scalar (value : Scalar)
  | array (value : NdArray)
  | qubits (register : QubitRegister)
  | bits (register : BitRegister)
  | qubitAlias (register : QubitRegister)
  | bitAlias (register : BitRegister)
  deriving DecidableEq, Repr

namespace Binding

def kind : Binding → BindingKind
  | .scalar _ => .scalar
  | .array _ => .array
  | .qubits _ => .qubits
  | .bits _ => .bits
  | .qubitAlias _ | .bitAlias _ => .alias

def globalOnly : Binding → Bool
  | .array _ | .qubits _ | .bits _ => true
  | .scalar _ | .qubitAlias _ | .bitAlias _ => false

end Binding

inductive ScopeKind where
  | global
  | block
  deriving DecidableEq, Repr

def ScopeKind.text : ScopeKind → String
  | .global => "global"
  | .block => "block"

structure Scope where
  kind : ScopeKind
  symbols : List (String × Binding)
  deriving DecidableEq, Repr

namespace Scope

def empty (kind : ScopeKind) : Scope := ⟨kind, []⟩

def lookup? (s : Scope) (name : String) : Option Binding := s.symbols.lookup name

def insert (s : Scope) (name : String) (binding : Binding) : Scope :=
  { s with symbols := (name, binding) :: s.symbols }

def replace (s : Scope) (name : String) (binding : Binding) : Scope :=
  { s with symbols := s.symbols.map fun symbol =>
      if symbol.1 = name then (name, binding) else symbol }

end Scope

/-- The open scopes, innermost first. -/
structure Scopes where
  frames : List Scope
  deriving DecidableEq, Repr

namespace Scopes

def initial : Scopes := ⟨[.empty .global]⟩

def depth (s : Scopes) : Nat := s.frames.length - 1

def isGlobal (s : Scopes) : Bool := s.frames.length = 1

def currentKind (s : Scopes) : ScopeKind :=
  match s.frames with
  | [] => .global
  | scope :: _ => scope.kind

def enter (s : Scopes) : Scopes := ⟨.empty .block :: s.frames⟩

/-- Close the innermost block and count the names that it drops; the global
scope is never closed. -/
def exit (s : Scopes) : Option Nat × Scopes :=
  match s.frames with
  | scope :: outer :: rest => (some scope.symbols.length, ⟨outer :: rest⟩)
  | _ => (none, s)

def declare (s : Scopes) (name : String) (binding : Binding) : Except Fault Scopes :=
  if binding.globalOnly && !s.isGlobal then .error (.notGlobal name)
  else match s.frames with
    | [] => .error (.notGlobal name)
    | scope :: outer =>
      if (scope.lookup? name).isSome then .error (.redeclared name)
      else .ok ⟨scope.insert name binding :: outer⟩

def lookup? (s : Scopes) (name : String) : Option Binding := s.frames.findSome? (·.lookup? name)

def lookup (s : Scopes) (name : String) : Except Fault Binding :=
  match s.lookup? name with
  | some binding => .ok binding
  | none => .error (.undefined name)

def contains (s : Scopes) (name : String) : Bool := (s.lookup? name).isSome

/-- The scopes with a name's binding overwritten in the first that has it. -/
def replaceIn (name : String) (binding : Binding) : List Scope → List Scope
  | [] => []
  | scope :: outer =>
    if (scope.lookup? name).isSome then scope.replace name binding :: outer
    else scope :: replaceIn name binding outer

def replace (s : Scopes) (name : String) (binding : Binding) : Except Fault Scopes :=
  if s.contains name then .ok ⟨replaceIn name binding s.frames⟩ else .error (.undefined name)

@[simp] theorem exit_enter (s : Scopes) (h : s.frames ≠ []) : s.enter.exit = (some 0, s) := by
  obtain ⟨frames⟩ := s
  cases frames with
  | nil => exact absurd rfl h
  | cons scope outer => rfl

end Scopes

end QasmValues
