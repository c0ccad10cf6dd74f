import QasmValues.NdArray.View
import QasmValues.Program

/-! Operations that change the state of a program.
Declarations, aliases and assignments. An operation yields a result or a fault,
together with the state that it leaves. The names of constants cannot be declared. -/

namespace QasmValues

namespace Program

/-- An operation on the state of a program. A fault does not undo what came
before it, so that an operation must check before it writes. -/
abbrev Action (α : Type) := ExceptT Fault (StateM Program) α

namespace Action

def enterScope : Action Unit :=
  modify fun p => { p with scopes := p.scopes.enter }

/-- Close the innermost block; at global scope nothing happens. -/
def exitScope : Action Unit :=
  modify fun p => { p with scopes := p.scopes.exit.2 }

def checkFree (name : String) : Action Unit :=
  if isConstant name then throw (.redeclared name) else pure ()

def checkGlobal (name : String) : Action Unit := do
  if (← get).scopes.isGlobal then pure () else throw (.notGlobal name)

def bindName (name : String) (binding : Binding) : Action Unit := do
  let p ← get
  let scopes ← MonadExcept.ofExcept (p.scopes.declare name binding)
  set { p with scopes }

def setStorage (storage : Storage) : Action Unit :=
  modify fun p => { p with storage }

def rebind (name : String) (binding : Binding) : Action Unit := do
  let p ← get
  let scopes ← MonadExcept.ofExcept (p.scopes.replace name binding)
  set { p with scopes }

/-- Check what a new register needs before any storage is taken for it. -/
def checkRegister (name : String) (family : Family) (size : Nat) (initial : Option Bits) :
    Action Unit := do
  checkFree name
  checkGlobal name
  if size = 0 then throw (.invalidWidth family 0)
  match initial with
  | some value => if value.length ≠ size then throw (.lengthMismatch size value.length)
  | none => pure ()
  if (← get).scopes.contains name then throw (.redeclared name)

def declareQubits (name : String) (size : Nat) : Action QubitRegister := do
  checkRegister name .qubit size none
  let (ids, storage) ← MonadExcept.ofExcept ((← get).storage.allocQubits size)
  setStorage storage
  let register : QubitRegister := ⟨ids, some name⟩
  bindName name (.qubits register)
  pure register

def declareBits (name : String) (size : Nat) (initial : Option Bits) : Action BitRegister := do
  checkRegister name .bit size initial
  let (ids, storage) ← MonadExcept.ofExcept ((← get).storage.allocBits size)
  setStorage storage
  let register : BitRegister := ⟨ids, some name⟩
  match initial with
  | some value => setStorage (← MonadExcept.ofExcept (register.write storage value))
  | none => pure ()
  bindName name (.bits register)
  pure register

def declareScalar (name : String) (type : ScalarType) (initial : Option Scalar) :
    Action Scalar := do
  checkFree name
  let p ← get
  let value ← MonadExcept.ofExcept <| match initial with
    | some v => p.convert v type
    | none => Scalar.zero type
  bindName name (.scalar value)
  pure value

def declareArray (name : String) (type : ArrayType) (elements : Option (List Scalar)) :
    Action Unit := do
  checkFree name
  checkGlobal name
  let p ← get
  let value ← MonadExcept.ofExcept <| match elements with
    | some values => do NdArray.ofElements type (← values.mapM (p.convert · type.element))
    | none => NdArray.zeros type
  bindName name (.array value)

def aliasQubits (name : String) (target : QubitRegister) : Action Unit := do
  checkFree name
  bindName name (.qubitAlias (target.withLabel name))

def aliasBits (name : String) (target : BitRegister) : Action Unit := do
  checkFree name
  bindName name (.bitAlias (target.withLabel name))

def assignScalar (name : String) (value : Scalar) : Action Unit := do
  let p ← get
  match ← MonadExcept.ofExcept (p.scopes.lookup name) with
  | .scalar current =>
    rebind name (.scalar (← MonadExcept.ofExcept (p.convert value current.type)))
  | other => throw (.bindingMismatch .scalar other.kind)

def writeBits (name : String) (spec : IndexSpec) (value : Bits) : Action Unit := do
  let p ← get
  match ← MonadExcept.ofExcept (p.scopes.lookup name) with
  | .bits r | .bitAlias r =>
    setStorage (← MonadExcept.ofExcept (r.writeSlice p.storage spec value))
  | .scalar current =>
    rebind name (.scalar (← MonadExcept.ofExcept (current.setSlice spec value)))
  | other => throw (.bindingNotBitIndexable other.kind)

def assignArray (name : String) (subscript : List IndexSpec) (value : Indexed) : Action Unit := do
  let p ← get
  let a ← MonadExcept.ofExcept (p.array name)
  rebind name (.array (← MonadExcept.ofExcept (a.assign subscript value)))

end Action

end Program

end QasmValues
