import Mathlib.Data.List.Pairwise
import QasmValues.Proofs.Program.Step

/-! Who owns the qubits and bits of a program.
The declared registers, first declared first, number all qubits and all bits in
order, so that each has exactly one owner. Aliases own nothing, but as long as
their targets are made of what the program gave, they miss nothing either. -/

namespace QasmValues

namespace Binding

def qubitIds : Binding → List QubitId
  | .qubits r => r.ids
  | .scalar _ | .array _ | .bits _ | .qubitAlias _ | .bitAlias _ => []

def bitIds : Binding → List BitId
  | .bits r => r.ids
  | .scalar _ | .array _ | .qubits _ | .qubitAlias _ | .bitAlias _ => []

def Allocated (s : Storage) : Binding → Prop
  | .qubits r | .qubitAlias r => ∀ id ∈ r.ids, id.index < s.qubits
  | .bits r | .bitAlias r => r.Allocated s
  | .scalar _ | .array _ => True

theorem Allocated.mono {s t : Storage} {b : Binding} (h : b.Allocated s)
    (qubits : s.qubits ≤ t.qubits) (bits : s.bits.length ≤ t.bits.length) : b.Allocated t := by
  cases b with
  | scalar | array => trivial
  | qubits | qubitAlias => exact fun id member => Nat.lt_of_lt_of_le (h id member) qubits
  | bits | bitAlias => exact fun id member => Nat.lt_of_lt_of_le (h id member) bits

end Binding

namespace Program

variable {ι : Type} {p q : Program} {op : Operation} {register : Option Binding}
variable {past : List Program}

namespace Operation

/-- The register that an operation declares, if it declares one and succeeds. -/
def declared (op : Operation) (p : Program) : Option Binding :=
  match (op.perform.outcome p).1 with
  | .ok register => register
  | .error _ => none

theorem step_or_unchanged (op : Operation) (p : Program) :
    Step p op (op.declared p) (op.after p) ∨ op.declared p = none ∧ op.after p = p := by
  unfold declared after
  rcases outcome : op.perform.outcome p with ⟨e | register, q⟩
  · exact .inr ⟨rfl, op.atomic_perform p e q outcome⟩
  · exact .inl (step_of_perform outcome)

/-- What holds before an operation, and after it if it succeeds, holds after it. -/
theorem after_of_step {P : Program → Prop} (before : P p)
    (kept : ∀ q, Step p op (op.declared p) q → P q) : P (op.after p) := by
  obtain step | ⟨-, same⟩ := op.step_or_unchanged p
  · exact kept (op.after p) step
  · rw [same]
    exact before

end Operation

theorem run_of_after {P : Program → Prop} {ops : List Operation} (start : P p)
    (kept : ∀ op ∈ ops, ∀ q, P q → P (op.after q)) : P (run p ops) := by
  induction ops generalizing p with
  | nil => exact start
  | cons op ops ih =>
    obtain ⟨first, rest⟩ := List.forall_mem_cons.mp kept
    exact ih (first p start) rest

def declarations (p : Program) : List Operation → List Binding
  | [] => []
  | op :: ops => (op.declared p).toList ++ declarations (op.after p) ops

/-! ### One owner -/

/-- The registers number what they own from zero in their order. -/
def Numbers (ids : Binding → List ι) (mk : Nat → ι) (count : Nat) (registers : List Binding) :
    Prop :=
  registers.flatMap ids = (List.range count).map mk

theorem Numbers.append {ids : Binding → List ι} {mk : Nat → ι} {count size : Nat}
    {registers new : List Binding} (h : Numbers ids mk count registers)
    (fresh : new.flatMap ids = (List.range' count size).map mk) :
    Numbers ids mk (count + size) (registers ++ new) := by
  rw [Numbers, List.flatMap_append, h, fresh, map_range_append_range']

theorem Numbers.existsUnique {ids : Binding → List ι} {mk : Nat → ι} {count i : Nat}
    {registers : List Binding} (h : Numbers ids mk count registers)
    (injective : Function.Injective mk) (bound : i < count) :
    ∃! b, b ∈ registers ∧ mk i ∈ ids b := by
  have distinct : (registers.flatMap ids).Nodup := by
    rw [h]
    exact List.nodup_range.map injective
  have member : mk i ∈ registers.flatMap ids := by
    rw [h]
    exact List.mem_map_of_mem (List.mem_range.mpr bound)
  obtain ⟨b, inside, here⟩ := List.mem_flatMap.mp member
  refine ⟨b, ⟨inside, here⟩, fun c ⟨other, there⟩ => ?_⟩
  by_contra different
  have apart : Std.Symm (Function.onFun List.Disjoint ids) :=
    ⟨fun _ _ h _ left right => h right left⟩
  exact (List.nodup_flatMap.mp distinct).2.forall other inside different there here

theorem Step.new_qubits (h : Step p op register q) : ∃ size,
    q.storage.qubits = p.storage.qubits + size ∧
      register.toList.flatMap Binding.qubitIds =
        (List.range' p.storage.qubits size).map QubitId.mk := by
  obtain ⟨rfl, qubits, -⟩ | ⟨name, size, rfl, storage⟩ | ⟨name, content, rfl, storage⟩ := h.growth
  · exact ⟨0, qubits, rfl⟩
  · exact ⟨size, by rw [storage], List.append_nil _⟩
  · exact ⟨0, by rw [storage]; rfl, rfl⟩

theorem Step.new_bits (h : Step p op register q) : ∃ size,
    q.storage.bits.length = p.storage.bits.length + size ∧
      register.toList.flatMap Binding.bitIds =
        (List.range' p.storage.bits.length size).map BitId.mk := by
  obtain ⟨rfl, -, bits⟩ | ⟨name, size, rfl, storage⟩ | ⟨name, content, rfl, storage⟩ := h.growth
  · exact ⟨0, bits, rfl⟩
  · exact ⟨0, by rw [storage]; rfl, rfl⟩
  · exact ⟨content.length, by rw [storage, List.length_append], List.append_nil _⟩

/-- These registers are declared, and they own all qubits and bits. -/
structure Owned (p : Program) (owners : List Binding) : Prop where
  nested : Scopes.Nested p.scopes.frames
  registers : p.scopes.registers = owners
  qubits : Numbers Binding.qubitIds QubitId.mk p.storage.qubits owners
  bits : Numbers Binding.bitIds BitId.mk p.storage.bits.length owners

theorem owned_initial (policy : Policy) : (initial policy).Owned [] :=
  ⟨Scopes.nested_initial, rfl, rfl, rfl⟩

theorem Owned.after {owners : List Binding} (h : p.Owned owners) (op : Operation) :
    (op.after p).Owned (owners ++ (op.declared p).toList) := by
  obtain step | ⟨none, same⟩ := op.step_or_unchanged p
  · obtain ⟨new_qubits, qubits, fresh_qubits⟩ := step.new_qubits
    obtain ⟨new_bits, bits, fresh_bits⟩ := step.new_bits
    refine ⟨step.nested h.nested, ?_, ?_, ?_⟩
    · rw [step.registers h.nested, h.registers]
    · rw [qubits]
      exact h.qubits.append fresh_qubits
    · rw [bits]
      exact h.bits.append fresh_bits
  · rw [same, none, Option.toList_none, List.append_nil]
    exact h

theorem Owned.run {owners : List Binding} (h : p.Owned owners) (ops : List Operation) :
    (run p ops).Owned (owners ++ declarations p ops) := by
  induction ops generalizing p owners with
  | nil =>
    rw [declarations, List.append_nil]
    exact h
  | cons op ops ih =>
    rw [declarations, ← List.append_assoc]
    exact ih (h.after op)

/-! ### Aliases of what is owned -/

/-- A target is made of parts and joins of what looking names up gave in some of
the states. -/
def Given [DecidableEq ι] (look : Program → String → Except Fault (Register ι))
    (past : List Program) (target : Register ι) : Prop :=
  ∃ (e : RegisterExpr ι) (t : Register ι),
    e.Over (fun r => ∃ p ∈ past, ∃ name, look p name = .ok r) ∧ e.resolve = .ok t ∧
      target.ids = t.ids

def Operation.Sourced (past : List Program) : Operation → Prop
  | aliasQubits _ target => Given Program.qubits past target
  | aliasBits _ target => Given Program.bits past target
  | enterScope | exitScope | declareQubits .. | declareBits .. | declareScalar ..
  | declareArray .. | assignScalar .. | writeBits .. | assignArray .. => True

/-- Every alias on the way is of something that the program gave before. -/
def SourcedRun (past : List Program) (p : Program) : List Operation → Prop
  | [] => True
  | op :: ops => op.Sourced (p :: past) ∧ SourcedRun (p :: past) (op.after p) ops

def Covered (s : Storage) (p : Program) : Prop := Scopes.All (·.Allocated s) p.scopes.frames

theorem Covered.mono {s t : Storage} (h : p.Covered s) (qubits : s.qubits ≤ t.qubits)
    (bits : s.bits.length ≤ t.bits.length) : p.Covered t :=
  h.imp fun _ known => Binding.Allocated.mono known qubits bits

theorem Covered.qubits {s : Storage} {name : String} {r : QubitRegister} (h : p.Covered s)
    (found : p.qubits name = .ok r) : ∀ id ∈ r.ids, id.index < s.qubits := by
  obtain ⟨b, lookup, found⟩ := bind_eq_ok_iff.mp found
  have known := h.lookup? (Scopes.lookup_eq_ok_iff.mp lookup)
  cases b with
  | qubits | qubitAlias =>
    cases found
    exact known
  | scalar | array | bits | bitAlias => cases found

theorem Covered.bits {s : Storage} {name : String} {r : BitRegister} (h : p.Covered s)
    (found : p.bits name = .ok r) : r.Allocated s := by
  obtain ⟨b, lookup, found⟩ := bind_eq_ok_iff.mp found
  have known := h.lookup? (Scopes.lookup_eq_ok_iff.mp lookup)
  cases b with
  | bits | bitAlias =>
    cases found
    exact known
  | scalar | array | qubits | qubitAlias => cases found

theorem Given.forall_ids [DecidableEq ι] {P : ι → Prop} {target : Register ι}
    {look : Program → String → Except Fault (Register ι)} (h : Given look past target)
    (known : ∀ t ∈ past, ∀ name r, look t name = .ok r → ∀ id ∈ r.ids, P id) :
    ∀ id ∈ target.ids, P id := by
  obtain ⟨e, t, leaves, resolved, same⟩ := h
  rw [same]
  refine RegisterExpr.forall_ids_of_resolve (leaves.imp ?_) resolved
  rintro r ⟨t, member, name, found⟩
  exact known t member name r found

theorem Step.covered (h : Step p op register q) (sourced : op.Sourced (p :: past))
    (known : ∀ t ∈ p :: past, t.Covered p.storage) : ∀ t ∈ q :: p :: past, t.Covered q.storage := by
  have grown : ∀ t ∈ p :: past, t.Covered q.storage := by
    intro t member
    obtain ⟨_, qubits, -⟩ := h.new_qubits
    obtain ⟨_, bits, -⟩ := h.new_bits
    exact (known t member).mono (by omega) (by omega)
  refine List.forall_mem_cons.mpr ⟨?_, grown⟩
  have here := grown p List.mem_cons_self
  cases h with
  | enterScope => exact here.enter
  | exitScope => exact here.exit
  | declareQubits _ _ bound =>
    refine bound.all here fun id member => ?_
    obtain ⟨index, inside, rfl⟩ := List.mem_map.mp member
    rw [bound.storage]
    exact (List.mem_range'_1.mp inside).2
  | declareBits _ length _ bound =>
    refine bound.all here fun id member => ?_
    obtain ⟨index, inside, rfl⟩ := List.mem_map.mp member
    have filled := Bits.length_getD_zeros length
    have fresh := (List.mem_range'_1.mp inside).2
    rw [bound.storage, List.length_append]
    exact Nat.lt_of_lt_of_eq fresh (congrArg _ filled.symm)
  | declareScalar _ bound | declareArray _ bound => exact bound.all here trivial
  | aliasQubits bound =>
    exact bound.all here (sourced.forall_ids fun t member _ _ => (grown t member).qubits)
  | aliasBits bound =>
    exact bound.all here (sourced.forall_ids fun t member _ _ => (grown t member).bits)
  | assignScalar _ bound | writeScalar _ bound | assignArray _ bound =>
    exact bound.all here trivial
  | writeRegister => exact here

theorem Operation.covered (op : Operation) (sourced : op.Sourced (p :: past))
    (known : ∀ t ∈ p :: past, t.Covered p.storage) :
    ∀ t ∈ op.after p :: p :: past, t.Covered (op.after p).storage := by
  obtain step | ⟨-, same⟩ := op.step_or_unchanged p
  · exact step.covered sourced known
  · rw [same]
    exact List.forall_mem_cons.mpr ⟨known p List.mem_cons_self, known⟩

theorem covered_run {ops : List Operation} (known : ∀ t ∈ p :: past, t.Covered p.storage)
    (sourced : SourcedRun past p ops) : (run p ops).Covered (run p ops).storage := by
  induction ops generalizing past p with
  | nil => exact known p List.mem_cons_self
  | cons op ops ih => exact ih (op.covered sourced.1 known) sourced.2

/-- After any operations the registers in scope are all that were ever declared, in
the order of their declaration, and each qubit and each bit belongs to one of them.
Aliases of what the program gave refer to nothing else. -/
theorem registers_own_storage (policy : Policy) (ops : List Operation) :
    let start := initial policy
    let p := run start ops
    p.scopes.registers = declarations start ops ∧
      p.scopes.registers.flatMap Binding.qubitIds =
        (List.range p.storage.qubits).map QubitId.mk ∧
      p.scopes.registers.flatMap Binding.bitIds =
        (List.range p.storage.bits.length).map BitId.mk ∧
      (∀ i < p.storage.qubits, ∃! b, b ∈ p.scopes.registers ∧ ⟨i⟩ ∈ b.qubitIds) ∧
      (∀ i < p.storage.bits.length, ∃! b, b ∈ p.scopes.registers ∧ ⟨i⟩ ∈ b.bitIds) ∧
      (SourcedRun [] start ops → p.Covered p.storage) := by
  intro start p
  have owned : p.Owned (declarations start ops) := (owned_initial policy).run ops
  have qubits := owned.registers ▸ owned.qubits
  have bits := owned.registers ▸ owned.bits
  refine ⟨owned.registers, qubits, bits, fun i bound => ?_, fun i bound => ?_, fun sourced => ?_⟩
  · exact qubits.existsUnique (fun _ _ => QubitId.mk.inj) bound
  · exact bits.existsUnique (fun _ _ => BitId.mk.inj) bound
  · have known : start.Covered start.storage := by
      simp [Covered, Scopes.All, start, initial, Scopes.initial, Scope.empty]
    exact covered_run (List.forall_mem_singleton.mpr known) sourced

theorem registers_own_storage_of_block :
    let start := initial ⟨.round, .forbid⟩
    let ops : List Operation :=
      [.declareQubits "q" 3, .enterScope, .aliasQubits "pair" (.ofIds [⟨2⟩, ⟨0⟩]),
        .declareBits "c" 1 none]
    SourcedRun [] start ops ∧ (run start ops).Covered (run start ops).storage := by
  intro start ops
  let q : QubitRegister := ⟨[⟨0⟩, ⟨1⟩, ⟨2⟩], some "q"⟩
  let declared := (Operation.declareQubits "q" 3).after start
  let entered := Operation.enterScope.after declared
  have look : declared.qubits "q" = .ok q := by decide +kernel
  have known : ∃ p ∈ [entered, declared, start], ∃ name, p.qubits name = .ok q :=
    ⟨declared, by simp, "q", look⟩
  have pair : Given Program.qubits [entered, declared, start] (.ofIds [⟨2⟩, ⟨0⟩]) :=
    ⟨.append (.slice (.register q) (.single 2)) (.slice (.register q) (.single 0)),
      .ofIds [⟨2⟩, ⟨0⟩], ⟨known, known⟩, by decide, rfl⟩
  have sourced : SourcedRun [] start ops :=
    ⟨trivial, trivial, pair, trivial, trivial⟩
  exact ⟨sourced, (registers_own_storage _ ops).2.2.2.2.2 sourced⟩

end Program

end QasmValues
