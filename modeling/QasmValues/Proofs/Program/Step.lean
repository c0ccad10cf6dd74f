import QasmValues.Proofs.Program.Operation

/-! The effects of operations.
A declaration binds a name that the innermost scope lacks, an assignment to a scalar
or an array overwrites the binding that a name resolves to, and a write to a register
changes storage. Blocks keep their place inside the global scope, and only the
declaration of a register changes the list of registers. -/

namespace QasmValues

namespace Program

variable {p q : Program} {name : String} {b old new : Binding}

/-- A name that is not reserved is bound in the innermost scope, which lacked it. -/
inductive Binds (p : Program) (name : String) (b : Binding) : Program → Prop where
  | intro {scope : Scope} {outer : List Scope} (unreserved : isConstant name = false)
      (frames : p.scopes.frames = scope :: outer) (unbound : scope.lookup? name = none)
      (allowed : b.globalOnly = true → outer = []) :
      Binds p name b { p with scopes := ⟨scope.insert name b :: outer⟩ }

inductive Rebinds (p : Program) (name : String) (old new : Binding) : Program → Prop where
  | intro (found : Scopes.Resolves name old p.scopes.frames) :
      Rebinds p name old new { p with scopes := ⟨Scopes.replaceIn name new p.scopes.frames⟩ }

namespace Action

theorem outcome_checkFree_eq_ok_iff :
    (checkFree name).outcome p = (.ok (), q) ↔ isConstant name = false ∧ p = q := by
  rw [outcome_checkFree]
  by_cases reserved : isConstant name = true <;> simp [reserved]

theorem outcome_ofExcept_eq_ok_iff {α : Type} {x : Except Fault α} {a : α} :
    (MonadExcept.ofExcept x : Action α).outcome p = (.ok a, q) ↔ x = .ok a ∧ p = q := by
  rw [outcome_ofExcept, Prod.mk.injEq]

theorem binds_of_bindName (unreserved : isConstant name = false)
    (h : (bindName name b).outcome p = (.ok (), q)) : p.Binds name b q := by
  rw [outcome_bindName] at h
  split at h
  · rename_i scopes declared
    obtain ⟨scope, outer, frames, allowed, unbound, rfl⟩ := Scopes.declare_eq_ok_iff.mp declared
    cases h
    exact .intro unreserved frames unbound allowed
  · cases h

theorem rebinds_of_rebind (found : p.scopes.lookup name = .ok old)
    (h : (rebind name new).outcome p = (.ok (), q)) : p.Rebinds name old new q := by
  rw [outcome_rebind] at h
  split at h
  · rename_i scopes replaced
    obtain ⟨-, rfl⟩ := Scopes.replace_eq_ok_iff.mp replaced
    cases h
    exact .intro (Scopes.lookup?_eq_some_iff.mp (Scopes.lookup_eq_ok_iff.mp found))
  · cases h

end Action

def newQubits (p : Program) (name : String) (size : Nat) : QubitRegister :=
  ⟨(List.range' p.storage.qubits size).map QubitId.mk, some name⟩

def newBits (p : Program) (name : String) (size : Nat) : BitRegister :=
  ⟨(List.range' p.storage.bits.length size).map BitId.mk, some name⟩

def startScalar (p : Program) (type : ScalarType) (initial : Option Scalar) :
    Except Fault Scalar :=
  match initial with
  | some v => p.convert v type
  | none => Scalar.zero type

def startArray (p : Program) (type : ArrayType) (elements : Option (List Scalar)) :
    Except Fault NdArray :=
  match elements with
  | some values => do NdArray.ofElements type (← values.mapM (p.convert · type.element))
  | none => NdArray.zeros type

/-- What an operation that succeeds does to the state, and the register that it declares. -/
inductive Step (p : Program) : Operation → Option Binding → Program → Prop where
  | enterScope : Step p .enterScope none { p with scopes := p.scopes.enter }
  | exitScope : Step p .exitScope none { p with scopes := p.scopes.exit.2 }
  | declareQubits {name : String} {size : Nat} {q : Program} (filled : size ≠ 0)
      (room : p.storage.qubits + size ≤ maxCount)
      (bound : Binds { p with storage := { p.storage with qubits := p.storage.qubits + size } }
        name (.qubits (p.newQubits name size)) q) :
      Step p (.declareQubits name size) (some (.qubits (p.newQubits name size))) q
  | declareBits {name : String} {size : Nat} {initial : Option Bits} {q : Program}
      (filled : size ≠ 0) (length : ∀ value, initial = some value → value.length = size)
      (room : p.storage.bits.length + size ≤ maxCount)
      (bound : Binds { p with storage := { p.storage with
          bits := p.storage.bits ++ (initial.getD (.zeros size)).toList } }
        name (.bits (p.newBits name size)) q) :
      Step p (.declareBits name size initial) (some (.bits (p.newBits name size))) q
  | declareScalar {name : String} {type : ScalarType} {initial : Option Scalar} {value : Scalar}
      {q : Program} (start : p.startScalar type initial = .ok value)
      (bound : p.Binds name (.scalar value) q) :
      Step p (.declareScalar name type initial) none q
  | declareArray {name : String} {type : ArrayType} {elements : Option (List Scalar)}
      {value : NdArray} {q : Program} (start : p.startArray type elements = .ok value)
      (bound : p.Binds name (.array value) q) : Step p (.declareArray name type elements) none q
  | aliasQubits {name : String} {target : QubitRegister} {q : Program}
      (bound : p.Binds name (.qubitAlias (target.withLabel name)) q) :
      Step p (.aliasQubits name target) none q
  | aliasBits {name : String} {target : BitRegister} {q : Program}
      (bound : p.Binds name (.bitAlias (target.withLabel name)) q) :
      Step p (.aliasBits name target) none q
  | assignScalar {name : String} {value current new : Scalar} {q : Program}
      (converted : p.convert value current.type = .ok new)
      (bound : p.Rebinds name (.scalar current) (.scalar new) q) :
      Step p (.assignScalar name value) none q
  | writeRegister {name : String} {spec : IndexSpec} {value : Bits} {r : BitRegister}
      {storage : Storage} (found : p.bits name = .ok r)
      (written : r.writeSlice p.storage spec value = .ok storage) :
      Step p (.writeBits name spec value) none { p with storage }
  | writeScalar {name : String} {spec : IndexSpec} {value : Bits} {current new : Scalar}
      {q : Program} (written : current.setSlice spec value = .ok new)
      (bound : p.Rebinds name (.scalar current) (.scalar new) q) :
      Step p (.writeBits name spec value) none q
  | assignArray {name : String} {subscript : List IndexSpec} {value : Indexed}
      {current new : NdArray} {q : Program} (assigned : current.assign subscript value = .ok new)
      (bound : p.Rebinds name (.array current) (.array new) q) :
      Step p (.assignArray name subscript value) none q

theorem lookup_of_array {a : NdArray} (h : p.array name = .ok a) :
    p.scopes.lookup name = .ok (.array a) := by
  obtain ⟨binding, found, h⟩ := bind_eq_ok_iff.mp h
  cases binding with
  | array =>
    cases h
    exact found
  | scalar | qubits | bits | qubitAlias | bitAlias => cases h

namespace Action

theorem step_declareQubits {size : Nat} {r : QubitRegister}
    (h : (declareQubits name size).outcome p = (.ok r, q)) :
    Step p (.declareQubits name size) (some (.qubits r)) q := by
  obtain ⟨_, t, checked, -⟩ := outcome_bind_eq_ok_iff.mp h
  obtain rfl := (readonly_checkRegister .qubit none).eq checked
  obtain ⟨filled, -, scope, vacant⟩ := (checkRegister_eq_ok_iff .qubit none).mp checked
  rw [outcome_declareQubits vacant filled] at h
  split at h
  · rename_i ids storage room
    obtain ⟨enough, rfl, rfl⟩ := Storage.allocQubits_eq_ok_iff.mp room
    cases h
    exact .declareQubits filled enough
      (.intro vacant.unreserved vacant.frames vacant.unbound fun _ => rfl)
  · cases h

theorem step_declareBits {size : Nat} {initial : Option Bits} {r : BitRegister}
    (h : (declareBits name size initial).outcome p = (.ok r, q)) :
    Step p (.declareBits name size initial) (some (.bits r)) q := by
  obtain ⟨_, t, checked, -⟩ := outcome_bind_eq_ok_iff.mp h
  obtain rfl := (readonly_checkRegister .bit initial).eq checked
  obtain ⟨filled, length, scope, vacant⟩ := (checkRegister_eq_ok_iff .bit initial).mp checked
  rw [outcome_declareBits vacant filled length] at h
  split at h
  · rename_i ids storage room
    obtain ⟨enough, rfl, -⟩ := Storage.allocBits_eq_ok_iff.mp room
    cases h
    exact .declareBits filled length enough
      (.intro vacant.unreserved vacant.frames vacant.unbound fun _ => rfl)
  · cases h

theorem step_declareScalar {type : ScalarType} {initial : Option Scalar} {value : Scalar}
    (h : (declareScalar name type initial).outcome p = (.ok value, q)) :
    Step p (.declareScalar name type initial) none q := by
  unfold declareScalar at h
  rw [outcome_bind_eq_ok_iff] at h
  obtain ⟨_, _, free, h⟩ := h
  obtain ⟨unreserved, rfl⟩ := outcome_checkFree_eq_ok_iff.mp free
  rw [outcome_bind_of_ok outcome_get] at h
  rw [outcome_bind_eq_ok_iff] at h
  obtain ⟨value, _, start, h⟩ := h
  rw [outcome_ofExcept_eq_ok_iff] at start
  obtain ⟨start, rfl⟩ := start
  obtain ⟨_, bound, -⟩ := outcome_bind_pure_eq_ok_iff.mp h
  exact .declareScalar start (binds_of_bindName unreserved bound)

theorem step_declareArray {type : ArrayType} {elements : Option (List Scalar)}
    (h : (declareArray name type elements).outcome p = (.ok (), q)) :
    Step p (.declareArray name type elements) none q := by
  unfold declareArray at h
  rw [outcome_bind_eq_ok_iff] at h
  obtain ⟨_, _, free, h⟩ := h
  obtain ⟨unreserved, rfl⟩ := outcome_checkFree_eq_ok_iff.mp free
  rw [outcome_bind_eq_ok_iff] at h
  obtain ⟨_, _, checked, h⟩ := h
  obtain rfl := (readonly_checkGlobal name).eq checked
  rw [outcome_bind_of_ok outcome_get] at h
  rw [outcome_bind_eq_ok_iff] at h
  obtain ⟨value, _, start, bound⟩ := h
  rw [outcome_ofExcept_eq_ok_iff] at start
  obtain ⟨start, rfl⟩ := start
  exact .declareArray start (binds_of_bindName unreserved bound)

theorem step_aliasQubits {target : QubitRegister}
    (h : (aliasQubits name target).outcome p = (.ok (), q)) :
    Step p (.aliasQubits name target) none q := by
  unfold aliasQubits at h
  rw [outcome_bind_eq_ok_iff] at h
  obtain ⟨_, _, free, bound⟩ := h
  obtain ⟨unreserved, rfl⟩ := outcome_checkFree_eq_ok_iff.mp free
  exact .aliasQubits (binds_of_bindName unreserved bound)

theorem step_aliasBits {target : BitRegister}
    (h : (aliasBits name target).outcome p = (.ok (), q)) :
    Step p (.aliasBits name target) none q := by
  unfold aliasBits at h
  rw [outcome_bind_eq_ok_iff] at h
  obtain ⟨_, _, free, bound⟩ := h
  obtain ⟨unreserved, rfl⟩ := outcome_checkFree_eq_ok_iff.mp free
  exact .aliasBits (binds_of_bindName unreserved bound)

theorem step_assignScalar {value : Scalar}
    (h : (assignScalar name value).outcome p = (.ok (), q)) :
    Step p (.assignScalar name value) none q := by
  unfold assignScalar at h
  rw [outcome_bind_of_ok outcome_get] at h
  rw [outcome_bind_eq_ok_iff] at h
  obtain ⟨binding, _, found, h⟩ := h
  rw [outcome_ofExcept_eq_ok_iff] at found
  obtain ⟨found, rfl⟩ := found
  cases binding with
  | scalar current =>
    rw [outcome_bind_eq_ok_iff] at h
    obtain ⟨new, _, converted, rebound⟩ := h
    rw [outcome_ofExcept_eq_ok_iff] at converted
    obtain ⟨converted, rfl⟩ := converted
    exact .assignScalar converted (rebinds_of_rebind found rebound)
  | array | qubits | bits | qubitAlias | bitAlias => cases h

theorem step_writeBits {spec : IndexSpec} {value : Bits}
    (h : (writeBits name spec value).outcome p = (.ok (), q)) :
    Step p (.writeBits name spec value) none q := by
  unfold writeBits at h
  rw [outcome_bind_of_ok outcome_get] at h
  rw [outcome_bind_eq_ok_iff] at h
  obtain ⟨binding, _, found, h⟩ := h
  rw [outcome_ofExcept_eq_ok_iff] at found
  obtain ⟨found, rfl⟩ := found
  cases binding with
  | bits r | bitAlias r =>
    have bits : p.bits name = .ok r := by
      rw [Program.bits, found]
      rfl
    rw [outcome_bind_eq_ok_iff] at h
    obtain ⟨storage, _, written, stored⟩ := h
    rw [outcome_ofExcept_eq_ok_iff] at written
    obtain ⟨written, rfl⟩ := written
    cases stored
    exact .writeRegister bits written
  | scalar current =>
    rw [outcome_bind_eq_ok_iff] at h
    obtain ⟨new, _, written, rebound⟩ := h
    rw [outcome_ofExcept_eq_ok_iff] at written
    obtain ⟨written, rfl⟩ := written
    exact .writeScalar written (rebinds_of_rebind found rebound)
  | array | qubits | qubitAlias => cases h

theorem step_assignArray {subscript : List IndexSpec} {value : Indexed}
    (h : (assignArray name subscript value).outcome p = (.ok (), q)) :
    Step p (.assignArray name subscript value) none q := by
  unfold assignArray at h
  rw [outcome_bind_of_ok outcome_get] at h
  rw [outcome_bind_eq_ok_iff] at h
  obtain ⟨current, _, found, h⟩ := h
  rw [outcome_ofExcept_eq_ok_iff] at found
  obtain ⟨found, rfl⟩ := found
  rw [outcome_bind_eq_ok_iff] at h
  obtain ⟨new, _, assigned, rebound⟩ := h
  rw [outcome_ofExcept_eq_ok_iff] at assigned
  obtain ⟨assigned, rfl⟩ := assigned
  exact .assignArray assigned (rebinds_of_rebind (lookup_of_array found) rebound)

end Action

theorem step_of_perform {op : Operation} {declared : Option Binding}
    (h : op.perform.outcome p = (.ok declared, q)) : Step p op declared q := by
  cases op with
  | enterScope =>
    cases h
    exact .enterScope
  | exitScope =>
    cases h
    exact .exitScope
  | declareQubits =>
    obtain ⟨r, run, rfl⟩ := Action.outcome_bind_pure_eq_ok_iff.mp h
    exact Action.step_declareQubits run
  | declareBits =>
    obtain ⟨r, run, rfl⟩ := Action.outcome_bind_pure_eq_ok_iff.mp h
    exact Action.step_declareBits run
  | declareScalar =>
    obtain ⟨_, run, rfl⟩ := Action.outcome_bind_pure_eq_ok_iff.mp h
    exact Action.step_declareScalar run
  | declareArray =>
    obtain ⟨_, run, rfl⟩ := Action.outcome_bind_pure_eq_ok_iff.mp h
    exact Action.step_declareArray run
  | aliasQubits =>
    obtain ⟨_, run, rfl⟩ := Action.outcome_bind_pure_eq_ok_iff.mp h
    exact Action.step_aliasQubits run
  | aliasBits =>
    obtain ⟨_, run, rfl⟩ := Action.outcome_bind_pure_eq_ok_iff.mp h
    exact Action.step_aliasBits run
  | assignScalar =>
    obtain ⟨_, run, rfl⟩ := Action.outcome_bind_pure_eq_ok_iff.mp h
    exact Action.step_assignScalar run
  | writeBits =>
    obtain ⟨_, run, rfl⟩ := Action.outcome_bind_pure_eq_ok_iff.mp h
    exact Action.step_writeBits run
  | assignArray =>
    obtain ⟨_, run, rfl⟩ := Action.outcome_bind_pure_eq_ok_iff.mp h
    exact Action.step_assignArray run

/-! ### Scopes after a step -/

namespace Binds

variable {P : Binding → Prop}

theorem storage (h : p.Binds name b q) : q.storage = p.storage := by
  cases h
  rfl

theorem nested (h : p.Binds name b q) (nested : Scopes.Nested p.scopes.frames) :
    Scopes.Nested q.scopes.frames := by
  obtain ⟨-, frames, unbound, allowed⟩ := h
  rw [frames] at nested
  exact nested.insert unbound allowed

theorem registers (h : p.Binds name b q) :
    q.scopes.registers = p.scopes.registers ++ if b.isRegister then [b] else [] := by
  obtain ⟨-, frames, -, -⟩ := h
  rw [Scopes.registers, Scopes.registers, frames, Scopes.registersOf, Scopes.registersOf,
    Scope.registers_insert, List.append_assoc]

theorem all (h : p.Binds name b q) (known : Scopes.All P p.scopes.frames) (hb : P b) :
    Scopes.All P q.scopes.frames := by
  obtain ⟨-, frames, -, -⟩ := h
  rw [frames] at known
  exact known.insert hb

end Binds

namespace Rebinds

variable {P : Binding → Prop}

theorem storage (h : p.Rebinds name old new q) : q.storage = p.storage := by
  cases h
  rfl

theorem nested (h : p.Rebinds name old new q) (nested : Scopes.Nested p.scopes.frames)
    (same : new.globalOnly = old.globalOnly) : Scopes.Nested q.scopes.frames := by
  obtain ⟨found⟩ := h
  exact nested.replaceIn found same

theorem registers (h : p.Rebinds name old new q) (nested : Scopes.Nested p.scopes.frames)
    (ho : old.isRegister = false) (hn : new.isRegister = false) :
    q.scopes.registers = p.scopes.registers := by
  obtain ⟨found⟩ := h
  exact Scopes.registersOf_replaceIn nested.distinct found ho hn

theorem all (h : p.Rebinds name old new q) (known : Scopes.All P p.scopes.frames)
    (hn : P new) : Scopes.All P q.scopes.frames := by
  obtain ⟨-⟩ := h
  exact known.replaceIn hn

theorem holds_old (h : p.Rebinds name old new q) (known : Scopes.All P p.scopes.frames) :
    P old := by
  obtain ⟨found⟩ := h
  exact known.lookup? (Scopes.lookup?_eq_some_iff.mpr found)

end Rebinds

namespace Step

variable {op : Operation} {declared : Option Binding}

theorem nested (h : Step p op declared q) (nested : Scopes.Nested p.scopes.frames) :
    Scopes.Nested q.scopes.frames := by
  cases h with
  | enterScope => exact .block rfl (Scope.distinct_empty _) nofun nested
  | exitScope => exact nested.exit
  | declareQubits _ _ bound | declareBits _ _ _ bound => exact bound.nested nested
  | declareScalar _ bound | declareArray _ bound => exact bound.nested nested
  | aliasQubits bound | aliasBits bound => exact bound.nested nested
  | assignScalar _ bound | writeScalar _ bound | assignArray _ bound =>
    exact bound.nested nested rfl
  | writeRegister => exact nested

theorem registers (h : Step p op declared q) (nested : Scopes.Nested p.scopes.frames) :
    q.scopes.registers = p.scopes.registers ++ declared.toList := by
  cases h with
  | enterScope => rw [Scopes.registers_enter, Option.toList_none, List.append_nil]
  | exitScope => rw [Scopes.registers_exit nested, Option.toList_none, List.append_nil]
  | declareQubits _ _ bound | declareBits _ _ _ bound => exact bound.registers
  | declareScalar _ bound | declareArray _ bound => exact bound.registers
  | aliasQubits bound | aliasBits bound => exact bound.registers
  | assignScalar _ bound | writeScalar _ bound | assignArray _ bound =>
    rw [bound.registers nested rfl rfl, Option.toList_none, List.append_nil]
  | writeRegister => rw [Option.toList_none, List.append_nil]

theorem growth (h : Step p op declared q) :
    (declared = none ∧ q.storage.qubits = p.storage.qubits ∧
        q.storage.bits.length = p.storage.bits.length) ∨
      (∃ name size, declared = some (.qubits (p.newQubits name size)) ∧
        q.storage = { p.storage with qubits := p.storage.qubits + size }) ∨
      ∃ name content, declared = some (.bits (p.newBits name content.length)) ∧
        q.storage = { p.storage with bits := p.storage.bits ++ content } := by
  cases h with
  | enterScope | exitScope => exact .inl ⟨rfl, rfl, rfl⟩
  | @declareQubits name size _ _ _ bound => exact .inr (.inl ⟨name, size, rfl, bound.storage⟩)
  | @declareBits name size initial _ _ length _ bound =>
    have filled : (initial.getD (.zeros size)).toList.length = size := Bits.length_getD_zeros length
    exact .inr (.inr ⟨name, _, by rw [filled], bound.storage⟩)
  | declareScalar _ bound | declareArray _ bound | aliasQubits bound | aliasBits bound =>
    refine .inl ⟨rfl, ?_, ?_⟩ <;> rw [bound.storage]
  | assignScalar _ bound | writeScalar _ bound | assignArray _ bound =>
    refine .inl ⟨rfl, ?_, ?_⟩ <;> rw [bound.storage]
  | writeRegister _ written => exact .inl ⟨rfl, Register.counts_of_writeSlice written⟩

end Step

end Program

end QasmValues
