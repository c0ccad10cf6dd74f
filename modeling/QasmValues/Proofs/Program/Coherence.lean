import QasmValues.Proofs.Program.Form

/-! The structure of the scopes of a program.
Whatever a program has run, the outermost scope is the global one and all others are
blocks, which hold scalars and aliases only. The checks that keep constants from being
bound are made before the scopes are touched, in each kind of declaration by itself, so
that no scope ever binds the name of a constant and all of them stay what they are. -/

namespace QasmValues

namespace Binding

theorem kind_of_not_globalOnly {b : Binding} (h : b.globalOnly = false) :
    b.kind = .scalar ∨ b.kind = .alias := by
  cases b with
  | scalar => exact .inl rfl
  | qubitAlias | bitAlias => exact .inr rfl
  | array | qubits | bits => cases h

end Binding

namespace Scopes

variable {s : Scopes} {frames updated : List Scope} {name : String}

def Unreserved (frames : List Scope) : Prop :=
  ∀ scope ∈ frames, ∀ symbol ∈ scope.symbols, isConstant symbol.1 = false

theorem unreserved_iff_outline :
    Unreserved frames ↔
      ∀ scope ∈ frames.map Scope.outline, ∀ symbol ∈ scope.2, isConstant symbol.1 = false := by
  simp [Unreserved, Scope.outline, Scope.forms]

theorem Unreserved.of_outline (h : Unreserved frames)
    (same : updated.map Scope.outline = frames.map Scope.outline) : Unreserved updated := by
  rw [unreserved_iff_outline] at h ⊢
  rw [same]
  exact h

theorem Unreserved.shift (h : Unreserved frames) (shifted : Shift frames updated) :
    Unreserved updated := by
  cases shifted with
  | none => exact h
  | enter => exact List.forall_mem_cons.mpr ⟨nofun, h⟩
  | exit => exact (List.forall_mem_cons.mp h).2
  | bind unreserved =>
    obtain ⟨first, rest⟩ := List.forall_mem_cons.mp h
    exact List.forall_mem_cons.mpr ⟨List.forall_mem_cons.mpr ⟨unreserved, first⟩, rest⟩

theorem Unreserved.lookup (h : Unreserved s.frames) (reserved : isConstant name = true) :
    s.lookup? name = none := by
  cases found : s.lookup? name with
  | none => rfl
  | some b =>
    obtain ⟨scope, member, inside⟩ := List.exists_of_findSome?_eq_some found
    have free := h scope member (name, b) (Scope.mem_of_lookup? inside)
    rw [reserved] at free
    cases free

theorem Nested.exists_outermost (h : Nested frames) :
    ∃ blocks outermost, frames = blocks ++ [outermost] ∧ outermost.kind = .global ∧
      ∀ scope ∈ blocks, scope.kind = .block ∧
        ∀ symbol ∈ scope.symbols, symbol.2.kind = .scalar ∨ symbol.2.kind = .alias := by
  induction h with
  | @global scope kind => exact ⟨[], scope, rfl, kind, nofun⟩
  | @block scope outer kind _ plain _ ih =>
    obtain ⟨blocks, outermost, rfl, last, inner⟩ := ih
    have here := fun symbol member => Binding.kind_of_not_globalOnly (plain symbol member)
    exact ⟨scope :: blocks, outermost, rfl, last, List.forall_mem_cons.mpr ⟨⟨kind, here⟩, inner⟩⟩

theorem Nested.length_pos (h : Nested frames) : 0 < frames.length := by
  cases h with
  | global | block => exact Nat.succ_pos _

theorem Nested.depth_eq_zero_iff (h : Nested s.frames) : s.depth = 0 ↔ s.isGlobal = true := by
  have filled := h.length_pos
  rw [depth, isGlobal, decide_eq_true_iff]
  omega

theorem Nested.isGlobal_iff_currentKind (h : Nested s.frames) :
    s.isGlobal = true ↔ s.currentKind = .global := by
  obtain ⟨frames⟩ := s
  cases h with
  | global kind => exact iff_of_true rfl kind
  | @block scope outer kind _ _ rest =>
    have filled := rest.length_pos
    refine iff_of_false (fun only => ?_) fun same => ?_
    · rw [isGlobal, decide_eq_true_iff, List.length_cons] at only
      omega
    · have block : scope.kind = .global := same
      rw [kind] at block
      cases block

end Scopes

namespace Program

variable {p : Program} {name : String}

/-- What holds of the scopes of a program whatever it has run. -/
structure Coherent (p : Program) : Prop where
  nested : Scopes.Nested p.scopes.frames
  typed : p.Typed
  unreserved : Scopes.Unreserved p.scopes.frames

theorem coherent_initial (policy : Policy) : (initial policy).Coherent where
  nested := Scopes.nested_initial
  typed := typed_initial policy
  unreserved := List.forall_mem_singleton.mpr nofun

theorem Coherent.after (h : p.Coherent) (op : Operation) : (op.after p).Coherent := by
  refine ⟨?_, h.typed.after op, ?_⟩
  · exact op.after_of_step (P := fun q => Scopes.Nested q.scopes.frames) h.nested
      fun _ step => step.nested h.nested
  · cases overwrites : op.overwrites with
    | true => exact h.unreserved.of_outline (op.outline_after overwrites h.nested h.typed)
    | false => exact h.unreserved.shift (op.shift_after overwrites)

theorem Coherent.run (h : p.Coherent) (ops : List Operation) : (run p ops).Coherent :=
  run_of_after h fun op _ _ coherent => coherent.after op

theorem coherent_run (policy : Policy) (ops : List Operation) :
    (run (initial policy) ops).Coherent :=
  (coherent_initial policy).run ops

theorem scalar_of_unbound {c : Constant} (unbound : p.scopes.lookup? name = none)
    (constant : Constant.ofName? name = some c) : p.scalar name = .ok c.scalar := by
  rw [scalar, unbound, constant]

namespace Action

theorem outcome_assignScalar_of_unbound (unbound : p.scopes.lookup? name = none)
    (value : Scalar) :
    (assignScalar name value).outcome p = (.error (.undefined name), p) := by
  have missing : p.scopes.lookup name = .error (.undefined name) := by
    rw [Scopes.lookup, unbound]
  unfold assignScalar
  rw [outcome_bind_of_ok outcome_get, missing]
  rfl

theorem outcome_writeBits_of_unbound (unbound : p.scopes.lookup? name = none)
    (spec : IndexSpec) (value : Bits) :
    (writeBits name spec value).outcome p = (.error (.undefined name), p) := by
  have missing : p.scopes.lookup name = .error (.undefined name) := by
    rw [Scopes.lookup, unbound]
  unfold writeBits
  rw [outcome_bind_of_ok outcome_get, missing]
  rfl

end Action

/-- Whatever a program has run, the global scope is the outermost one and the others are
blocks of scalars and aliases, so that being at depth zero, having the global scope alone and
having it innermost are the same. No name of a constant is bound: it always means the constant,
and there is nothing to assign to or to write to. -/
theorem scopes_structured (policy : Policy) (ops : List Operation) :
    let p := run (initial policy) ops
    (∃ blocks outermost, p.scopes.frames = blocks ++ [outermost] ∧ outermost.kind = .global ∧
      ∀ scope ∈ blocks, scope.kind = .block ∧
        ∀ symbol ∈ scope.symbols, symbol.2.kind = .scalar ∨ symbol.2.kind = .alias) ∧
    (∀ scope ∈ p.scopes.frames, ∀ symbol ∈ scope.symbols, isConstant symbol.1 = false) ∧
    (p.scopes.depth = 0 ↔ p.scopes.isGlobal = true) ∧
    (p.scopes.isGlobal = true ↔ p.scopes.currentKind = .global) ∧
    ∀ name c, Constant.ofName? name = some c →
      p.scalar name = .ok c.scalar ∧
      (∀ value, (Action.assignScalar name value).outcome p = (.error (.undefined name), p)) ∧
      ∀ spec value,
        (Action.writeBits name spec value).outcome p = (.error (.undefined name), p) := by
  intro p
  obtain ⟨nested, -, unreserved⟩ := coherent_run policy ops
  refine ⟨nested.exists_outermost, unreserved, nested.depth_eq_zero_iff,
    nested.isGlobal_iff_currentKind, fun name c constant => ?_⟩
  have reserved : isConstant name = true := by rw [isConstant, constant]; rfl
  have unbound : p.scopes.lookup? name = none := unreserved.lookup reserved
  exact ⟨scalar_of_unbound unbound constant, Action.outcome_assignScalar_of_unbound unbound,
    Action.outcome_writeBits_of_unbound unbound⟩

theorem scopes_structured_of_symbol :
    let ops : List Operation :=
      [.declareBits "c" 1 none, .enterScope, .declareScalar "pi" (.float 64) none,
        .aliasBits "π" (.ofIds [⟨0⟩])]
    let p := run (initial ⟨.round, .forbid⟩) ops
    Constant.ofName? "π" = some .pi ∧ p.scopes.depth = 1 ∧ p.scalar "π" = .ok Constant.pi.scalar ∧
      (Action.writeBits "π" .full ⟨[true]⟩).outcome p = (.error (.undefined "π"), p) := by
  intro ops p
  have constant : Constant.ofName? "π" = some .pi := by decide
  obtain ⟨-, -, -, -, means⟩ := scopes_structured ⟨.round, .forbid⟩ ops
  obtain ⟨value, -, written⟩ := means "π" .pi constant
  exact ⟨constant, by decide +kernel, value, written .full ⟨[true]⟩⟩

end Program

end QasmValues
