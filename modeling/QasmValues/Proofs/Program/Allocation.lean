import QasmValues.Proofs.Program.Form
import QasmValues.Proofs.Program.Ownership

/-! What declarations of registers and aliases do.
A register takes the next numbers in storage, which no register has had, and only the
global scope may bind it. An alias takes nothing and goes into whatever scope is the
innermost. Both bind one name there that this scope lacked, and leave the meaning of
every other name and the content of every older bit alone. -/

namespace QasmValues

namespace Scopes

variable {s : Scopes} {name : String} {b : Binding}

def Unbound (s : Scopes) (name : String) : Prop :=
  ∃ scope outer, s.frames = scope :: outer ∧ scope.lookup? name = none

/-- The innermost scope gains one binding, of a name that it lacked. -/
structure Gains (s : Scopes) (name : String) (b : Binding) (t : Scopes) : Prop where
  frames : ∃ scope outer, s.frames = scope :: outer ∧ scope.lookup? name = none ∧
    t.frames = scope.insert name b :: outer
  bound : t.lookup? name = some b
  others : ∀ other, other ≠ name → t.lookup? other = s.lookup? other

theorem gains_insert {scope : Scope} {outer : List Scope} (frames : s.frames = scope :: outer)
    (unbound : scope.lookup? name = none) : s.Gains name b ⟨scope.insert name b :: outer⟩ := by
  obtain ⟨_⟩ := s
  subst frames
  refine ⟨⟨scope, outer, rfl, unbound, rfl⟩, ?_, fun other different => ?_⟩
  · rw [lookup?_cons, Scope.lookup?_insert_self, Option.some_or]
  · rw [lookup?_cons, lookup?_cons, Scope.lookup?_insert_of_ne different]

end Scopes

theorem Register.read_appended (s : Storage) (content : Bits) (label : Option String) :
    read ⟨(List.range' s.bits.length content.length).map BitId.mk, label⟩
      { s with bits := s.bits ++ content.toList } = .ok content := by
  refine read_eq_ok_iff.mpr ⟨fun id member => ?_, congrArg Bits.mk ?_⟩
  · obtain ⟨index, inside, rfl⟩ := List.mem_map.mp member
    rw [List.length_append]
    exact (List.mem_range'_1.mp inside).2
  · apply List.ext_getElem
    · simp [places, Bits.length]
    · intro i inside _
      simp [places, inside]

namespace Program

variable {ι : Type} {p q : Program} {name : String} {b : Binding} {size : Nat}
variable {owners : List Binding}

theorem Binds.gains (h : p.Binds name b q) : p.scopes.Gains name b q.scopes := by
  obtain ⟨-, frames, unbound, -⟩ := h
  exact Scopes.gains_insert frames unbound

theorem Binds.free (h : p.Binds name b q) (globalOnly : b.globalOnly = true) :
    isConstant name = false ∧ p.scopes.isGlobal = true ∧ p.scopes.contains name = false := by
  obtain ⟨unreserved, frames, unbound, allowed⟩ := h
  rw [allowed globalOnly] at frames
  exact exists_vacant_iff.mp ⟨_, unreserved, frames, unbound⟩

theorem Binds.kinds (h : p.Binds name b q) (globalOnly : b.globalOnly = true)
    (nested : Scopes.Nested p.scopes.frames) : p.scopes.frames.map Scope.kind = [.global] := by
  obtain ⟨-, frames, -, allowed⟩ := h
  rw [frames, allowed globalOnly] at nested ⊢
  cases nested with
  | global kind => exact congrArg (fun kind => [kind]) kind
  | block _ _ _ rest => cases rest

theorem Numbers.fresh {ids : Binding → List ι} {mk : Nat → ι} {count : Nat}
    (h : Numbers ids mk count owners) (injective : Function.Injective mk) (size : Nat) :
    ∀ id ∈ (List.range' count size).map mk, ∀ b ∈ owners, id ∉ ids b := by
  intro id new b member own
  obtain ⟨i, inside, rfl⟩ := List.mem_map.mp new
  have known : mk i ∈ owners.flatMap ids := List.mem_flatMap.mpr ⟨b, member, own⟩
  rw [h, List.mem_map_of_injective injective, List.mem_range] at known
  exact Nat.not_lt_of_le (List.mem_range'_1.mp inside).1 known

/-! ### Registers -/

/-- A register of the next qubits is bound to a name. -/
structure TakesQubits (p : Program) (name : String) (size : Nat) (r : QubitRegister)
    (q : Program) : Prop where
  global : p.scopes.frames.map Scope.kind = [.global]
  register : r = p.newQubits name size
  fresh : ∀ id ∈ r.ids, ∀ b ∈ p.scopes.registers, id ∉ b.qubitIds
  storage : q.storage = { p.storage with qubits := p.storage.qubits + size }
  policy : q.policy = p.policy
  gains : p.scopes.Gains name (.qubits r) q.scopes

/-- A register of the next bits is bound to a name, which reads as their content. -/
structure TakesBits (p : Program) (name : String) (size : Nat) (content : Bits)
    (r : BitRegister) (q : Program) : Prop where
  global : p.scopes.frames.map Scope.kind = [.global]
  register : r = p.newBits name size
  fresh : ∀ id ∈ r.ids, ∀ b ∈ p.scopes.registers, id ∉ b.bitIds
  length : content.length = size
  storage : q.storage = { p.storage with bits := p.storage.bits ++ content.toList }
  read : q.readBits name .full = .ok content
  policy : q.policy = p.policy
  gains : p.scopes.Gains name (.bits r) q.scopes

theorem readBits_of_bound {r : BitRegister} {spec : IndexSpec}
    (bound : p.scopes.lookup? name = some (.bits r)) :
    p.readBits name spec = r.readSlice p.storage spec := by
  have found := Scopes.lookup_eq_ok_iff.mpr bound
  rw [readBits, found]
  rfl

namespace Action

theorem exists_declareQubits_iff :
    (∃ r q, (declareQubits name size).outcome p = (.ok r, q)) ↔
      (isConstant name = false ∧ p.scopes.isGlobal = true ∧ p.scopes.contains name = false) ∧
        1 ≤ size ∧ p.storage.qubits + size ≤ maxCount := by
  constructor
  · rintro ⟨r, q, done⟩
    cases step_declareQubits done with
    | declareQubits filled room bound =>
      exact ⟨bound.free rfl, Nat.one_le_iff_ne_zero.mpr filled, room⟩
  · rintro ⟨free, filled, room⟩
    obtain ⟨scope, vacant⟩ := exists_vacant_iff.mpr free
    have allocated := Storage.allocQubits_eq_ok_iff.mpr ⟨room, rfl, rfl⟩
    rw [outcome_declareQubits vacant (Nat.one_le_iff_ne_zero.mp filled), allocated]
    exact ⟨_, _, rfl⟩

theorem exists_declareBits_iff {initial : Option Bits} :
    (∃ r q, (declareBits name size initial).outcome p = (.ok r, q)) ↔
      (isConstant name = false ∧ p.scopes.isGlobal = true ∧ p.scopes.contains name = false) ∧
        1 ≤ size ∧ (∀ value, initial = some value → value.length = size) ∧
        p.storage.bits.length + size ≤ maxCount := by
  constructor
  · rintro ⟨r, q, done⟩
    cases step_declareBits done with
    | declareBits filled length room bound =>
      exact ⟨bound.free rfl, Nat.one_le_iff_ne_zero.mpr filled, length, room⟩
  · rintro ⟨free, filled, length, room⟩
    obtain ⟨scope, vacant⟩ := exists_vacant_iff.mpr free
    have allocated := Storage.allocBits_eq_ok_iff.mpr ⟨room, rfl, rfl⟩
    rw [outcome_declareBits vacant (Nat.one_le_iff_ne_zero.mp filled) length, allocated]
    exact ⟨_, _, rfl⟩

theorem takesQubits {r : QubitRegister} (owned : p.Owned owners)
    (done : (declareQubits name size).outcome p = (.ok r, q)) : p.TakesQubits name size r q := by
  have step := step_declareQubits done
  have policy := step.policy
  cases step with
  | declareQubits _ _ bound =>
    have fresh := owned.qubits.fresh (fun _ _ => QubitId.mk.inj) size
    rw [← owned.registers] at fresh
    exact ⟨bound.kinds rfl owned.nested, rfl, fresh, bound.storage, policy, bound.gains⟩

theorem takesBits {initial : Option Bits} {r : BitRegister} (owned : p.Owned owners)
    (done : (declareBits name size initial).outcome p = (.ok r, q)) :
    p.TakesBits name size (initial.getD (.zeros size)) r q := by
  have step := step_declareBits done
  have policy := step.policy
  cases step with
  | declareBits filled length room bound =>
    have fresh := owned.bits.fresh (fun _ _ => BitId.mk.inj) size
    rw [← owned.registers] at fresh
    have count : (initial.getD (.zeros size)).length = size := Bits.length_getD_zeros length
    have short : maxCount ≤ maxLength := by decide
    have stored := Register.read_appended p.storage (initial.getD (.zeros size)) (some name)
    rw [count] at stored
    have read := Register.readSlice_full stored (by omega) (by omega)
    refine ⟨bound.kinds rfl owned.nested, rfl, fresh, count, bound.storage, ?_, policy, bound.gains⟩
    rw [readBits_of_bound bound.gains.bound, bound.storage]
    exact read

end Action

/-! ### Aliases -/

/-- An action binds a name in the innermost scope, if that is possible, and does nothing else. -/
structure Action.BindsOnly (a : Action Unit) (p : Program) (name : String) (b : Binding) :
    Prop where
  succeeds : (∃ q, a.outcome p = (.ok (), q)) ↔ isConstant name = false ∧ p.scopes.Unbound name
  storage : ∀ x q, a.outcome p = (x, q) → q.storage = p.storage
  policy : ∀ x q, a.outcome p = (x, q) → q.policy = p.policy
  gains : ∀ q, a.outcome p = (.ok (), q) → p.scopes.Gains name b q.scopes

namespace Action

theorem outcome_bindFree_eq_ok_iff :
    (do checkFree name; bindName name b).outcome p = (.ok (), q) ↔ p.Binds name b q := by
  constructor
  · intro done
    obtain ⟨_, _, free, bound⟩ := outcome_bind_eq_ok_iff.mp done
    obtain ⟨unreserved, rfl⟩ := outcome_checkFree_eq_ok_iff.mp free
    exact binds_of_bindName unreserved bound
  · rintro ⟨unreserved, frames, unbound, allowed⟩
    have free : (checkFree name).outcome p = (.ok (), p) :=
      outcome_checkFree_eq_ok_iff.mpr ⟨unreserved, rfl⟩
    have declared := (Scopes.declare_eq_ok_iff (b := b)).mpr
      ⟨_, _, frames, allowed, unbound, rfl⟩
    rw [outcome_bind_of_ok free, outcome_bindName, declared]

theorem unchanged_or_bound {x : Except Fault Unit}
    (done : (do checkFree name; bindName name b).outcome p = (x, q)) :
    q = p ∨ p.Binds name b q := by
  cases x with
  | error e =>
    refine .inl (((readonly_checkFree name).atomic_bind fun _ _ => ?_) e q done)
    exact atomic_bindName name b
  | ok => exact .inr (outcome_bindFree_eq_ok_iff.mp done)

theorem bindsOnly_bindFree (plain : b.globalOnly = false) :
    BindsOnly (do checkFree name; bindName name b) p name b where
  succeeds := by
    simp only [outcome_bindFree_eq_ok_iff]
    constructor
    · rintro ⟨q, unreserved, frames, unbound, -⟩
      exact ⟨unreserved, _, _, frames, unbound⟩
    · rintro ⟨unreserved, scope, outer, frames, unbound⟩
      exact ⟨_, .intro unreserved frames unbound (by simp [plain])⟩
  storage x q done := by
    obtain rfl | bound := unchanged_or_bound done
    · rfl
    · exact bound.storage
  policy x q done := by
    obtain rfl | bound := unchanged_or_bound done
    · rfl
    · exact bound.policy
  gains q done := (outcome_bindFree_eq_ok_iff.mp done).gains

end Action

/-- Whatever a program has run, a register can be declared just when its name is no constant's
and not bound, only the global scope is open, the register is not empty, an initial value has
its length and the numbers suffice. It is then a new one, its bits hold the initial value or
zeros, and apart from the one new binding nothing changes. An alias can be declared just when
its name is no constant's and the innermost scope does not bind it, and takes no storage. -/
theorem declarations_exact (policy : Policy) (ops : List Operation) :
    let p := run (initial policy) ops
    (∀ name size,
      ((∃ r q, (Action.declareQubits name size).outcome p = (.ok r, q)) ↔
        (isConstant name = false ∧ p.scopes.isGlobal = true ∧ p.scopes.contains name = false) ∧
          1 ≤ size ∧ p.storage.qubits + size ≤ maxCount) ∧
      ∀ r q, (Action.declareQubits name size).outcome p = (.ok r, q) →
        p.TakesQubits name size r q) ∧
    (∀ name size initial,
      ((∃ r q, (Action.declareBits name size initial).outcome p = (.ok r, q)) ↔
        (isConstant name = false ∧ p.scopes.isGlobal = true ∧ p.scopes.contains name = false) ∧
          1 ≤ size ∧ (∀ value, initial = some value → value.length = size) ∧
          p.storage.bits.length + size ≤ maxCount) ∧
      ∀ r q, (Action.declareBits name size initial).outcome p = (.ok r, q) →
        p.TakesBits name size (initial.getD (.zeros size)) r q) ∧
    (∀ name target, Action.BindsOnly (.aliasQubits name target) p name
      (.qubitAlias (target.withLabel name))) ∧
    ∀ name target, Action.BindsOnly (.aliasBits name target) p name
      (.bitAlias (target.withLabel name)) := by
  intro p
  have owned := (owned_initial policy).run ops
  refine ⟨fun name size => ⟨Action.exists_declareQubits_iff, ?_⟩,
    fun name size initial => ⟨Action.exists_declareBits_iff, ?_⟩,
    fun name target => Action.bindsOnly_bindFree rfl,
    fun name target => Action.bindsOnly_bindFree rfl⟩
  · intro r q done
    exact Action.takesQubits owned done
  · intro r q done
    exact Action.takesBits owned done

theorem declarations_exact_of_shadowed :
    let value : Bits := ⟨[true, false, true]⟩
    let ops : List Operation := [.declareBits "a" 2 none]
    let p := run (initial ⟨.round, .forbid⟩) ops
    let inner := run (initial ⟨.round, .forbid⟩) (ops ++ [.enterScope])
    (∃ r q, (Action.declareBits "c" 3 (some value)).outcome p = (.ok r, q) ∧
      r.ids = [⟨2⟩, ⟨3⟩, ⟨4⟩] ∧ q.readBits "c" .full = .ok value) ∧
    inner.scopes.contains "a" = true ∧
      ∃ q, (Action.aliasBits "a" (.ofIds [⟨1⟩])).outcome inner = (.ok (), q) ∧
        q.storage = inner.storage ∧
        q.scopes.lookup? "a" = some (.bitAlias ⟨[⟨1⟩], some "a"⟩) := by
  intro value ops p inner
  obtain ⟨-, bits, -, -⟩ := declarations_exact ⟨.round, .forbid⟩ ops
  obtain ⟨-, -, -, aliases⟩ := declarations_exact ⟨.round, .forbid⟩ (ops ++ [.enterScope])
  obtain ⟨declared, takes⟩ := bits "c" 3 (some value)
  obtain ⟨succeeds, storage, -, gains⟩ := aliases "a" (.ofIds [⟨1⟩])
  have valid : ∀ v, some value = some v → v.length = 3 := by
    rintro _ ⟨⟩
    rfl
  obtain ⟨r, q, done⟩ := declared.mpr ⟨by decide +kernel, by decide, valid, by decide +kernel⟩
  have unbound : inner.scopes.Unbound "a" := ⟨.empty .block, p.scopes.frames, rfl, rfl⟩
  obtain ⟨t, aliased⟩ := succeeds.mpr ⟨by decide +kernel, unbound⟩
  refine ⟨⟨r, q, done, ?_, (takes r q done).read⟩, by decide +kernel, t, aliased,
    storage _ t aliased, (gains t aliased).bound⟩
  rw [(takes r q done).register]
  decide +kernel

end Program

end QasmValues
