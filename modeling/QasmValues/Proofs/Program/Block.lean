import QasmValues.Proofs.Program.Stability

/-! Blocks leave nothing behind.
While a block is open, whatever is declared goes into it or a block inside it, and no
register can be declared at all. So the scopes around the block keep their outline,
and the storage its size, and closing the block leads back to both. Only assignments
and writes reach further out, and what they overwrite is content. -/

namespace QasmValues

namespace Scopes

variable {α : Type} {f : Scope → α} {frames updated : List Scope} {outer : List α}

theorem length_lt_of_depth_lt {s t : Scopes} (h : s.depth < t.depth) :
    s.frames.length < t.frames.length := by
  unfold depth at h
  omega

theorem depth_exit (s : Scopes) : s.exit.2.depth = s.depth - 1 := by
  obtain ⟨frames⟩ := s
  match frames with
  | [] | [_] | _ :: _ :: _ => rfl

theorem Shift.suffix (h : Shift frames updated) (around : outer <:+ frames.map f)
    (inside : outer.length < frames.length) : outer <:+ updated.map f := by
  have beyond {scope : Scope} {rest : List Scope} (around : outer <:+ f scope :: rest.map f)
      (inside : outer.length < rest.length + 1) : outer <:+ rest.map f := by
    obtain whole | part := List.suffix_cons_iff.mp around
    · rw [whole, List.length_cons, List.length_map] at inside
      omega
    · exact part
  cases h with
  | none => exact around
  | enter => exact around.trans (List.suffix_cons _ _)
  | exit => exact beyond around inside
  | bind => exact (beyond around inside).trans (List.suffix_cons _ _)

end Scopes

namespace Program

variable {p q : Program} {op : Operation} {declared : Option Binding} {ops : List Operation}

namespace Step

theorem declared_eq_none (h : Step p op declared q) (inside : 0 < p.scopes.depth) :
    declared = none := by
  cases h with
  | declareQubits _ _ bound | declareBits _ _ _ bound =>
    exact absurd (bound.depth_eq_zero rfl) (Nat.ne_of_gt inside)
  | enterScope | exitScope | declareScalar | declareArray | aliasQubits | aliasBits => rfl
  | assignScalar | writeRegister | writeScalar | assignArray => rfl

theorem counts (h : Step p op declared q) (inside : 0 < p.scopes.depth) :
    q.storage.qubits = p.storage.qubits ∧
      q.storage.bits.length = p.storage.bits.length := by
  have none := h.declared_eq_none inside
  obtain ⟨-, same⟩ | ⟨_, _, some, -⟩ | ⟨_, _, some, -⟩ := h.growth
  · exact same
  · cases none.symm.trans some
  · cases none.symm.trans some

theorem storage (h : Step p op declared q) (other : op.overwrites = false)
    (inside : 0 < p.scopes.depth) : q.storage = p.storage := by
  cases h with
  | enterScope | exitScope => rfl
  | declareQubits _ _ bound | declareBits _ _ _ bound =>
    exact absurd (bound.depth_eq_zero rfl) (Nat.ne_of_gt inside)
  | declareScalar _ bound | declareArray _ bound => exact bound.storage
  | aliasQubits bound | aliasBits bound => exact bound.storage
  | assignScalar | writeRegister | writeScalar | assignArray => cases other

end Step

/-- The scopes of `q` are blocks inside those of `p`, of which, as of the storage, only
content has changed. -/
structure Surrounds (p q : Program) : Prop where
  outline : p.scopes.outline <:+ q.scopes.outline
  policy : q.policy = p.policy
  qubits : q.storage.qubits = p.storage.qubits
  bits : q.storage.bits.length = p.storage.bits.length

namespace Surrounds

theorem enter (p : Program) : p.Surrounds (Operation.enterScope.after p) :=
  ⟨List.suffix_cons _ _, rfl, rfl, rfl⟩

theorem after (h : p.Surrounds q) (coherent : q.Coherent)
    (inside : p.scopes.depth < q.scopes.depth) (op : Operation) : p.Surrounds (op.after q) := by
  have counts : (op.after q).storage.qubits = q.storage.qubits ∧
      (op.after q).storage.bits.length = q.storage.bits.length :=
    op.after_of_step (P := fun r => r.storage.qubits = q.storage.qubits ∧
        r.storage.bits.length = q.storage.bits.length)
      ⟨rfl, rfl⟩ fun _ step => step.counts (Nat.zero_lt_of_lt inside)
  refine ⟨?_, op.policy_after.trans h.policy, counts.1.trans h.qubits, counts.2.trans h.bits⟩
  cases overwrites : op.overwrites with
  | true => exact (op.outline_after overwrites coherent.nested coherent.typed).symm ▸ h.outline
  | false =>
    refine (op.shift_after overwrites).suffix h.outline ?_
    rw [Scopes.outline, List.length_map]
    exact Scopes.length_lt_of_depth_lt inside

theorem run (h : p.Surrounds q) (coherent : q.Coherent)
    (stays : StaysOpen (p.scopes.depth + 1) q ops) : p.Surrounds (run q ops) := by
  induction ops generalizing q with
  | nil => exact h
  | cons op ops ih => exact ih (h.after coherent stays.1 op) (coherent.after op) stays.2

theorem outline_eq (h : p.Surrounds q) (same : q.scopes.frames.length = p.scopes.frames.length) :
    q.scopes.outline = p.scopes.outline := by
  refine (h.outline.eq_of_length ?_).symm
  rw [Scopes.outline, Scopes.outline, List.length_map, List.length_map, same]

end Surrounds

def OverwritesNothing (p : Program) : List Operation → Prop
  | [] => True
  | op :: ops =>
    (op.overwrites = true → (op.perform.outcome p).1.isOk = false) ∧
      OverwritesNothing (op.after p) ops

instance decidableOverwritesNothing :
    (p : Program) → (ops : List Operation) → Decidable (OverwritesNothing p ops)
  | _, [] => inferInstanceAs (Decidable True)
  | p, op :: ops =>
    have := decidableOverwritesNothing (op.after p) ops
    inferInstanceAs (Decidable ((op.overwrites = true → (op.perform.outcome p).1.isOk = false) ∧
      OverwritesNothing (op.after p) ops))

theorem Operation.after_of_fault (failed : (op.perform.outcome p).1.isOk = false) :
    op.after p = p := by
  rcases outcome : op.perform.outcome p with ⟨e | register, q⟩
  · rw [after, outcome]
    exact op.atomic_perform p e q outcome
  · rw [outcome] at failed
    cases failed

/-- The scopes of `q` are blocks inside those of `p`, and nothing else has changed. -/
structure SurroundsUnchanged (p q : Program) : Prop where
  frames : p.scopes.frames <:+ q.scopes.frames
  policy : q.policy = p.policy
  storage : q.storage = p.storage

namespace SurroundsUnchanged

theorem enter (p : Program) : p.SurroundsUnchanged (Operation.enterScope.after p) :=
  ⟨List.suffix_cons _ _, rfl, rfl⟩

theorem after (h : p.SurroundsUnchanged q) (inside : p.scopes.depth < q.scopes.depth)
    (other : op.overwrites = false) : p.SurroundsUnchanged (op.after q) := by
  refine op.after_of_step h fun r step => ?_
  have storage := step.storage other (Nat.zero_lt_of_lt inside)
  have around := h.frames
  rw [← List.map_id q.scopes.frames] at around
  have still := (step.shift other).suffix around (Scopes.length_lt_of_depth_lt inside)
  rw [List.map_id] at still
  exact ⟨still, step.policy.trans h.policy, storage.trans h.storage⟩

theorem run (h : p.SurroundsUnchanged q) (stays : StaysOpen (p.scopes.depth + 1) q ops)
    (nothing : OverwritesNothing q ops) : p.SurroundsUnchanged (run q ops) := by
  induction ops generalizing q with
  | nil => exact h
  | cons op ops ih =>
    have kept : p.SurroundsUnchanged (op.after q) := by
      cases overwrites : op.overwrites with
      | false => exact h.after stays.1 overwrites
      | true =>
        rw [Operation.after_of_fault (nothing.1 overwrites)]
        exact h
    exact ih kept stays.2 nothing.2

theorem eq (h : p.SurroundsUnchanged q)
    (same : q.scopes.frames.length = p.scopes.frames.length) : q = p := by
  have frames := h.frames.eq_of_length same.symm
  have policy := h.policy
  have storage := h.storage
  obtain ⟨_, _, ⟨_⟩⟩ := p
  obtain ⟨_, _, ⟨_⟩⟩ := q
  cases frames
  cases policy
  cases storage
  rfl

end SurroundsUnchanged

theorem run_block (p : Program) (body : List Operation) :
    run p (.enterScope :: body ++ [.exitScope]) =
      Operation.exitScope.after (run (Operation.enterScope.after p) body) := by
  rw [run, List.foldl_append]
  rfl

/-- Leaving a block undoes what was declared in it, and nothing else. In any state that a
program can reach, a block is opened, whatever runs does not close it, and then it is
closed. The open scopes have the names that they had, with their kinds and types and what
they refer to, and no storage is taken. If no assignment and no write succeeded, the
state is the one before the block. -/
theorem block_restores (policy : Policy) (ops body : List Operation) :
    let p := run (initial policy) ops
    let entered := Operation.enterScope.after p
    let q := run p (.enterScope :: body ++ [.exitScope])
    StaysOpen (p.scopes.depth + 1) entered body →
    (run entered body).scopes.depth = p.scopes.depth + 1 →
      q.scopes.depth = p.scopes.depth ∧ q.scopes.outline = p.scopes.outline ∧
        q.policy = p.policy ∧ q.storage.qubits = p.storage.qubits ∧
        q.storage.bits.length = p.storage.bits.length ∧
        (OverwritesNothing entered body → q = p) := by
  intro p entered q stays closes
  have coherent : p.Coherent := coherent_run policy ops
  have inside : p.scopes.depth < (run entered body).scopes.depth := Nat.lt_of_lt_of_eq
    (Nat.lt_succ_self _) closes.symm
  have left : q = Operation.exitScope.after (run entered body) := run_block p body
  have depth : q.scopes.depth = p.scopes.depth := by
    have exited : (Operation.exitScope.after (run entered body)).scopes.depth =
        (run entered body).scopes.depth - 1 := Scopes.depth_exit _
    rw [left, exited, closes, Nat.add_sub_cancel]
  have coherent_entered : entered.Coherent := coherent.after .enterScope
  have coherent_body := coherent_entered.run body
  have same : q.scopes.frames.length = p.scopes.frames.length := by
    have here := coherent.nested.length_pos
    have there : 0 < q.scopes.frames.length := by
      rw [left]
      exact (coherent_body.after .exitScope).nested.length_pos
    have lengths : q.scopes.frames.length - 1 = p.scopes.frames.length - 1 := depth
    omega
  have surrounds : p.Surrounds q := by
    rw [left]
    exact ((Surrounds.enter p).run coherent_entered stays).after coherent_body inside .exitScope
  refine ⟨depth, surrounds.outline_eq same, surrounds.policy, surrounds.qubits, surrounds.bits,
    fun nothing => ?_⟩
  have unchanged : p.SurroundsUnchanged q := by
    rw [left]
    exact ((SurroundsUnchanged.enter p).run stays nothing).after inside rfl
  exact unchanged.eq same

theorem block_restores_of_shadowing :
    let ops : List Operation := [.declareScalar "n" (.int 8) none, .declareBits "b" 2 none]
    let quiet : List Operation :=
      [.declareScalar "n" (.uint 4) none, .declareScalar "n" .bool none, .declareQubits "q" 1,
        .enterScope, .aliasBits "last" (.ofIds [⟨1⟩]), .assignScalar "last" (.bool true),
        .exitScope]
    let writing : List Operation :=
      [.enterScope, .aliasBits "last" (.ofIds [⟨1⟩]), .writeBits "last" .full ⟨[true]⟩,
        .exitScope]
    let p := run (initial ⟨.round, .forbid⟩) ops
    let entered := Operation.enterScope.after p
    (StaysOpen 1 entered quiet ∧ (run entered quiet).scopes.depth = 1 ∧
      OverwritesNothing entered quiet ∧ run p (.enterScope :: quiet ++ [.exitScope]) = p) ∧
    (StaysOpen 1 entered writing ∧ (run entered writing).scopes.depth = 1 ∧
      let q := run p (.enterScope :: writing ++ [.exitScope])
      q.scopes.outline = p.scopes.outline ∧ q.storage.bits = [false, true]) := by
  intro ops quiet writing p entered
  constructor
  · have stays : StaysOpen 1 entered quiet := by decide +kernel
    have closes : (run entered quiet).scopes.depth = 1 := by decide +kernel
    have nothing : OverwritesNothing entered quiet := by decide +kernel
    obtain ⟨-, -, -, -, -, restored⟩ := block_restores ⟨.round, .forbid⟩ ops quiet stays closes
    exact ⟨stays, closes, nothing, restored nothing⟩
  · have stays : StaysOpen 1 entered writing := by decide +kernel
    have closes : (run entered writing).scopes.depth = 1 := by decide +kernel
    obtain ⟨-, outline, -⟩ := block_restores ⟨.round, .forbid⟩ ops writing stays closes
    exact ⟨stays, closes, outline, by decide +kernel⟩

end Program

end QasmValues
