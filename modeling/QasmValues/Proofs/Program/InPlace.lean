import QasmValues.Proofs.NdArray.InPlace
import QasmValues.Proofs.Program.ArrayAssignment
import QasmValues.Proofs.Program.BoundArrays

/-! Writing by name in place.
Bits of registers are stored one after the other in the storage of the program, and elements in
the array that a name is bound to. A fault in the middle would leave the earlier ones stored.
None comes there, and so a program that writes in place passes through the same states. -/

namespace QasmValues

namespace Scopes

variable {name : String} {b : Binding} {frames updated : List Scope}

theorem Updates.eq_of_same (h : Updates name b b frames updated) : updated = frames := by
  induction h with
  | here => rfl
  | further _ _ ih => rw [ih]

end Scopes

namespace Program

variable {p : Program}

namespace Action

/-- Leave the storage that an update in place leaves, and report what it reports. -/
def leave (update : Except Fault Unit × Storage) : Action Unit := do
  setStorage update.2
  MonadExcept.ofExcept update.1

theorem outcome_leave (update : Except Fault Storage) :
    (leave (concluded p.storage update)).outcome p =
      (do setStorage (← MonadExcept.ofExcept update) : Action Unit).outcome p := by
  cases update <;> rfl

def storeBits (name : String) (spec : IndexSpec) (value : Bits) : Action Unit := do
  let p ← get
  match ← MonadExcept.ofExcept (p.scopes.lookup name) with
  | .bits r | .bitAlias r => leave (r.storeSlice p.storage spec value)
  | .scalar current =>
    rebind name (.scalar (← MonadExcept.ofExcept (current.setSlice spec value)))
  | other => throw (.bindingNotBitIndexable other.kind)

theorem outcome_storeBits (p : Program) (name : String) (spec : IndexSpec) (value : Bits) :
    (storeBits name spec value).outcome p = (writeBits name spec value).outcome p := by
  unfold storeBits writeBits
  rw [outcome_bind, outcome_bind, outcome_get]
  dsimp only
  rw [outcome_bind, outcome_bind, outcome_ofExcept]
  cases p.scopes.lookup name with
  | error e => rfl
  | ok binding =>
    cases binding with
    | bits r | bitAlias r =>
      dsimp only
      rw [r.storeSlice_eq]
      exact outcome_leave _
    | scalar | array | qubits | qubitAlias => rfl

/-- The initial value of new bits is stored in place as well. -/
def declareStoredBits (name : String) (size : Nat) (initial : Option Bits) :
    Action BitRegister := do
  checkRegister name .bit size initial
  let (ids, storage) ← MonadExcept.ofExcept ((← get).storage.allocBits size)
  setStorage storage
  let register : BitRegister := ⟨ids, some name⟩
  match initial with
  | some value => leave (register.store storage value)
  | none => pure ()
  bindName name (.bits register)
  pure register

theorem outcome_declareStoredBits (p : Program) (name : String) (size : Nat)
    (initial : Option Bits) :
    (declareStoredBits name size initial).outcome p =
      (declareBits name size initial).outcome p := by
  unfold declareStoredBits declareBits
  rw [outcome_bind, outcome_bind]
  rcases (checkRegister name .bit size initial).outcome p with ⟨_ | _, q⟩
  · rfl
  · simp only [outcome_bind, outcome_get, outcome_ofExcept, outcome_setStorage]
    cases q.storage.allocBits size with
    | error e => rfl
    | ok allocated =>
      obtain ⟨ids, storage⟩ := allocated
      cases initial with
      | none => rfl
      | some value =>
        dsimp only
        rw [Register.store_eq]
        cases Register.write _ storage value <;> rfl

def storeArray (name : String) (subscript : List IndexSpec) (value : Indexed) : Action Unit := do
  let p ← get
  let a ← MonadExcept.ofExcept (p.array name)
  let (report, b) := a.store subscript value
  rebind name (.array b)
  MonadExcept.ofExcept report

theorem outcome_storeArray (nested : Scopes.Nested p.scopes.frames) (known : p.ArraysObtained)
    (name : String) (subscript : List IndexSpec) (value : Indexed) :
    (storeArray name subscript value).outcome p =
      (assignArray name subscript value).outcome p := by
  cases found : p.array name with
  | error e =>
    unfold storeArray assignArray
    simp only [outcome_bind, outcome_get, outcome_ofExcept, found]
  | ok a =>
    have bound := Scopes.lookup_eq_ok_iff.mp (lookup_of_array found)
    have wellFormed : a.WellFormed := Indexed.Obtained.wellFormed (known.lookup? bound)
    have kept := (Scopes.updates_replaceIn nested.distinct
      (Scopes.lookup?_eq_some_iff.mp bound)).eq_of_same
    have replaced (b : NdArray) : p.scopes.replace name (.array b) =
        .ok ⟨Scopes.replaceIn name (.array b) p.scopes.frames⟩ :=
      Scopes.replace_eq_ok_iff.mpr ⟨⟨_, bound⟩, rfl⟩
    rw [outcome_assignArray found]
    unfold storeArray
    simp only [outcome_bind, outcome_get, outcome_ofExcept, found, wellFormed.store_eq]
    cases a.assign subscript value with
    | error e =>
      dsimp only [concluded]
      rw [outcome_rebind, replaced, kept]
    | ok b =>
      dsimp only [concluded]
      rw [outcome_rebind, replaced]

end Action

/-! ### Runs -/

/-- Perform an operation that writes to several places in place. -/
def Operation.performInPlace : Operation → Action (Option Binding)
  | declareBits name size initial => do
    pure (some (.bits (← Action.declareStoredBits name size initial)))
  | writeBits name spec value => do Action.storeBits name spec value; pure none
  | assignArray name subscript value => do Action.storeArray name subscript value; pure none
  | op => op.perform

def runInPlace (p : Program) (ops : List Operation) : Program :=
  ops.foldl (fun p op => (op.performInPlace.outcome p).2) p

theorem Operation.outcome_performInPlace (nested : Scopes.Nested p.scopes.frames)
    (known : p.ArraysObtained) (op : Operation) :
    op.performInPlace.outcome p = op.perform.outcome p := by
  cases op with
  | declareBits name size initial =>
    exact Action.outcome_bind_congr (Action.outcome_declareStoredBits p name size initial)
  | writeBits name spec value =>
    exact Action.outcome_bind_congr (Action.outcome_storeBits p name spec value)
  | assignArray name subscript value =>
    exact Action.outcome_bind_congr (Action.outcome_storeArray nested known name subscript value)
  | enterScope | exitScope | declareQubits | declareScalar | declareArray | aliasQubits
  | aliasBits | assignScalar => rfl

theorem runInPlace_eq {owners : List Binding} {ops : List Operation} (owned : p.Owned owners)
    (known : p.ArraysObtained) (supplied : ∀ op ∈ ops, op.Supplied) :
    runInPlace p ops = run p ops := by
  induction ops generalizing p owners with
  | nil => rfl
  | cons op ops ih =>
    obtain ⟨here, rest⟩ := List.forall_mem_cons.mp supplied
    have step : (op.performInPlace.outcome p).2 = op.after p :=
      congrArg Prod.snd (op.outcome_performInPlace owned.nested known)
    change runInPlace (op.performInPlace.outcome p).2 ops = run (op.after p) ops
    rw [step]
    exact ih (owned.after op) (known.after here) rest

/-- In place a program passes through the same states, and in each of them an operation reports
the same and leaves the same. So it leaves the state as it was where it reports a fault. -/
theorem runs_in_place (policy : Policy) (ops : List Operation)
    (supplied : ∀ op ∈ ops, op.Supplied) :
    let p := runInPlace (initial policy) ops
    p = run (initial policy) ops ∧
      ∀ op : Operation, op.performInPlace.outcome p = op.perform.outcome p ∧
        ∀ e q, op.performInPlace.outcome p = (.error e, q) → q = p := by
  intro p
  have run : p = run (initial policy) ops :=
    runInPlace_eq (owned_initial policy) (arraysObtained_initial policy) supplied
  have owned : p.Owned _ := run ▸ (owned_initial policy).run ops
  have known : p.ArraysObtained := run ▸ (arraysObtained_initial policy).run supplied
  refine ⟨run, fun op => ?_⟩
  have same := op.outcome_performInPlace owned.nested known
  refine ⟨same, fun e q failed => ?_⟩
  rw [same] at failed
  exact op.atomic_perform p e q failed

end Program

end QasmValues
