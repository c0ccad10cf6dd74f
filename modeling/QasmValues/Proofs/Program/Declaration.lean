import QasmValues.Proofs.Program.Action
import QasmValues.Proofs.Register
import QasmValues.Proofs.Scope

/-! Declarations of registers.
A register takes storage before its name is bound. Its checks make sure that the
name can be bound, and that an initial value fits, so that afterwards only the
room in storage decides. -/

namespace QasmValues

namespace Register

variable {s t : Storage} {size : Nat} {ids : List BitId} {label : Option String} {value : Bits}

theorem write_allocBits (h : s.allocBits size = .ok (ids, t)) (length : value.length = size) :
    write ⟨ids, label⟩ t value = .ok { s with bits := s.bits ++ value.toList } := by
  obtain ⟨-, rfl, rfl⟩ := Storage.allocBits_eq_ok_iff.mp h
  refine write_eq_ok_iff.mpr ⟨by simp [Register.length, length], fun id member => ?_, ?_⟩
  · obtain ⟨index, inside, rfl⟩ := List.mem_map.mp member
    have bound := (List.mem_range'_1.mp inside).2
    simpa using bound
  · have fresh := overwrite_append_range' s.bits (List.replicate size false) value.toList
      (by simpa [Bits.length] using length)
    rw [List.length_replicate] at fresh
    simp [places, Function.comp_def, fresh]

end Register

namespace Program

variable {p q : Program} {name : String} {scope : Scope} {size : Nat}

/-- Only the global scope is open, and a name is free there. -/
structure Vacant (p : Program) (name : String) (scope : Scope) : Prop where
  unreserved : isConstant name = false
  frames : p.scopes.frames = [scope]
  unbound : scope.lookup? name = none

theorem exists_vacant_iff : (∃ scope, p.Vacant name scope) ↔
    isConstant name = false ∧ p.scopes.isGlobal = true ∧ p.scopes.contains name = false := by
  constructor
  · rintro ⟨scope, unreserved, frames, unbound⟩
    refine ⟨unreserved, Scopes.isGlobal_iff.mpr ⟨scope, frames⟩, ?_⟩
    simp [Scopes.contains, Scopes.lookup?, frames, unbound]
  · rintro ⟨unreserved, global, unbound⟩
    obtain ⟨scope, frames⟩ := Scopes.isGlobal_iff.mp global
    refine ⟨scope, unreserved, frames, ?_⟩
    simpa [Scopes.contains, Scopes.lookup?, frames] using unbound

namespace Action

theorem outcome_checkRegister (family : Family) (initial : Option Bits) :
    (checkRegister name family size initial).outcome p =
      (if isConstant name then .error (.redeclared name)
      else if p.scopes.isGlobal = false then .error (.notGlobal name)
      else if size = 0 then .error (.invalidWidth family 0)
      else match initial.filter (·.length ≠ size) with
        | some value => .error (.lengthMismatch size value.length)
        | none => if p.scopes.contains name then .error (.redeclared name) else .ok (), p) := by
  unfold checkRegister
  simp only [outcome_bind, outcome_checkFree, outcome_checkGlobal]
  by_cases reserved : isConstant name = true
  · simp [reserved]
  by_cases global : p.scopes.isGlobal = true
  swap
  · simp [reserved, global]
  by_cases empty : size = 0
  · simp [reserved, global, empty]
  cases initial with
  | none => by_cases bound : p.scopes.contains name = true <;> simp [*, outcome_bind]
  | some value =>
    by_cases length : value.length = size
    · by_cases bound : p.scopes.contains name = true <;>
        simp [*, outcome_bind, Option.filter_some]
    · simp [*, Option.filter_some]

theorem readonly_checkRegister (family : Family) (initial : Option Bits) :
    Readonly (checkRegister name family size initial) := fun p => by
  rw [outcome_checkRegister]

theorem checkRegister_eq_ok_iff (family : Family) (initial : Option Bits) :
    (checkRegister name family size initial).outcome p = (.ok (), p) ↔
      size ≠ 0 ∧ (∀ value, initial = some value → value.length = size) ∧
        ∃ scope, p.Vacant name scope := by
  have length : initial.filter (·.length ≠ size) = none ↔
      ∀ value, initial = some value → value.length = size := by
    simp [Option.filter_eq_none_iff]
  rw [outcome_checkRegister, exists_vacant_iff, ← length]
  by_cases reserved : isConstant name = true
  · simp [reserved]
  by_cases global : p.scopes.isGlobal = true
  swap
  · simp [reserved, global]
  by_cases empty : size = 0
  · simp [reserved, global, empty]
  cases wrong : initial.filter (·.length ≠ size) with
  | some value => simp [reserved, global, empty]
  | none => by_cases bound : p.scopes.contains name = true <;> simp [*]

theorem outcome_bindName_of_frames (frames : p.scopes.frames = [scope])
    (unbound : scope.lookup? name = none) (b : Binding) :
    (bindName name b).outcome p = (.ok (), { p with scopes := ⟨[scope.insert name b]⟩ }) := by
  have declared : p.scopes.declare name b = .ok ⟨[scope.insert name b]⟩ :=
    Scopes.declare_eq_ok_iff.mpr ⟨scope, [], frames, fun _ => rfl, unbound, rfl⟩
  rw [outcome_bindName, declared]

theorem outcome_declareQubits (vacant : p.Vacant name scope) (filled : size ≠ 0) :
    (declareQubits name size).outcome p =
      match p.storage.allocQubits size with
      | .ok (ids, storage) => (.ok ⟨ids, some name⟩,
          { p with storage, scopes := ⟨[scope.insert name (.qubits ⟨ids, some name⟩)]⟩ })
      | .error e => (.error e, p) := by
  have checked := (checkRegister_eq_ok_iff .qubit none).mpr
    ⟨filled, nofun, scope, vacant⟩
  unfold declareQubits
  rw [outcome_bind_of_ok checked, outcome_bind_of_ok outcome_get, outcome_bind, outcome_ofExcept]
  cases p.storage.allocQubits size with
  | error e => rfl
  | ok allocated =>
    obtain ⟨ids, storage⟩ := allocated
    have bound := outcome_bindName_of_frames (p := { p with storage }) vacant.frames vacant.unbound
      (.qubits ⟨ids, some name⟩)
    dsimp only
    rw [outcome_bind_of_ok (outcome_setStorage storage), outcome_bind_of_ok bound, outcome_pure]

theorem outcome_declareBits {initial : Option Bits} (vacant : p.Vacant name scope)
    (filled : size ≠ 0) (length : ∀ value, initial = some value → value.length = size) :
    (declareBits name size initial).outcome p =
      match p.storage.allocBits size with
      | .ok (ids, _) => (.ok ⟨ids, some name⟩,
          { p with
            storage := { p.storage with
              bits := p.storage.bits ++ (initial.getD (.zeros size)).toList }
            scopes := ⟨[scope.insert name (.bits ⟨ids, some name⟩)]⟩ })
      | .error e => (.error e, p) := by
  have checked := (checkRegister_eq_ok_iff .bit initial).mpr ⟨filled, length, scope, vacant⟩
  unfold declareBits
  rw [outcome_bind_of_ok checked, outcome_bind_of_ok outcome_get, outcome_bind, outcome_ofExcept]
  cases room : p.storage.allocBits size with
  | error e => rfl
  | ok allocated =>
    obtain ⟨ids, storage⟩ := allocated
    have bound (storage : Storage) := outcome_bindName_of_frames (p := { p with storage })
      vacant.frames vacant.unbound (.bits ⟨ids, some name⟩)
    dsimp only
    rw [outcome_bind_of_ok (outcome_setStorage storage)]
    cases initial with
    | none =>
      obtain ⟨-, -, rfl⟩ := Storage.allocBits_eq_ok_iff.mp room
      rw [outcome_bind_of_ok (bound _), outcome_pure]
      rfl
    | some value =>
      have written : Register.write ⟨ids, some name⟩ storage value = .ok _ :=
        Register.write_allocBits room (length value rfl)
      dsimp only
      rw [written, outcome_bind_of_ok (outcome_ofExcept _),
        outcome_bind_of_ok (outcome_setStorage _), outcome_bind_of_ok (bound _), outcome_pure]
      rfl

end Action

end Program

end QasmValues
