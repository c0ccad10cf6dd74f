import QasmValues.Proofs.Program.Coherence

/-! Declarations last as long as their scope.
An open scope is known by its level, the global scope being at level zero. A step binds
new names in the innermost scope only, and whatever else it does there or further out
keeps the form of every binding. So a scope that stays open only ever gains bindings. -/

namespace QasmValues

namespace Scope

variable {s t u : Scope} {name : String} {b : Binding}

/-- The scope `t` has the bindings of `s` in their forms, and perhaps later ones. -/
structure Extends (s t : Scope) : Prop where
  kind : t.kind = s.kind
  forms : s.forms <:+ t.forms

theorem extends_refl (s : Scope) : s.Extends s := ⟨rfl, List.suffix_rfl⟩

theorem Extends.trans (first : s.Extends t) (second : t.Extends u) : s.Extends u :=
  ⟨second.kind.trans first.kind, first.forms.trans second.forms⟩

theorem extends_insert (s : Scope) (name : String) (b : Binding) : s.Extends (s.insert name b) :=
  ⟨rfl, List.suffix_cons _ _⟩

theorem extends_of_outline (same : t.outline = s.outline) : s.Extends t := by
  obtain ⟨kind, forms⟩ := Prod.mk.inj same
  exact ⟨kind, forms ▸ List.suffix_rfl⟩

theorem Extends.lookup? (h : s.Extends t) (distinct : t.Distinct)
    (found : s.lookup? name = some b) : ∃ c, t.lookup? name = some c ∧ c.form = b.form := by
  have known : (name, b.form) ∈ s.forms := List.mem_map.mpr ⟨_, mem_of_lookup? found, rfl⟩
  obtain ⟨⟨other, c⟩, member, same⟩ := List.mem_map.mp (h.forms.subset known)
  obtain ⟨rfl, form⟩ := Prod.mk.inj same
  exact ⟨c, distinct.lookup?_of_mem member, form⟩

end Scope

namespace Scopes

variable {s t : Scopes} {scope : Scope} {frames outer updated : List Scope} {level : Nat}

/-- The open scope at a level, the global one being at level zero. -/
def level? (s : Scopes) (level : Nat) : Option Scope := s.frames.reverse[level]?

theorem level?_cons (inside : level < outer.length) :
    level? ⟨scope :: outer⟩ level = level? ⟨outer⟩ level := by
  rw [level?, level?, List.reverse_cons]
  exact List.getElem?_append_left (by rwa [List.length_reverse])

theorem level?_cons_self : level? ⟨scope :: outer⟩ outer.length = some scope := by
  rw [level?, List.reverse_cons, ← List.length_reverse]
  exact List.getElem?_concat_length

theorem lt_length_of_level? (found : level? ⟨frames⟩ level = some scope) :
    level < frames.length := by
  obtain ⟨inside, -⟩ := List.getElem?_eq_some_iff.mp found
  rwa [List.length_reverse] at inside

theorem mem_of_level? (found : s.level? level = some scope) : scope ∈ s.frames :=
  List.mem_reverse.mp (List.mem_of_getElem? found)

theorem map_outline_level? (same : t.outline = s.outline) (level : Nat) :
    (t.level? level).map Scope.outline = (s.level? level).map Scope.outline := by
  rw [level?, level?, ← List.getElem?_map, ← List.getElem?_map, List.map_reverse, List.map_reverse]
  exact congrArg (fun outlines => outlines.reverse[level]?) same

theorem Shift.level? (h : Shift frames updated) (below : level + 1 < frames.length) :
    level? ⟨updated⟩ level = level? ⟨frames⟩ level := by
  cases h with
  | none => rfl
  | enter => exact level?_cons (Nat.lt_of_succ_lt below)
  | exit => exact (level?_cons (Nat.lt_of_succ_lt_succ below)).symm
  | bind =>
    have inside := Nat.lt_of_succ_lt_succ below
    rw [level?_cons inside, level?_cons inside]

theorem Shift.extends (h : Shift frames updated) (found : Scopes.level? ⟨frames⟩ level = some scope)
    (stays : level < updated.length) :
    ∃ t, Scopes.level? ⟨updated⟩ level = some t ∧ scope.Extends t := by
  have bound := lt_length_of_level? found
  by_cases below : level + 1 < frames.length
  · exact ⟨scope, (h.level? below).trans found, scope.extends_refl⟩
  · cases h with
    | none => exact ⟨scope, found, scope.extends_refl⟩
    | enter => exact ⟨scope, (level?_cons bound).trans found, scope.extends_refl⟩
    | exit =>
      simp only [List.length_cons] at stays below
      omega
    | @bind innermost outer name b =>
      obtain rfl : level = outer.length := by
        simp only [List.length_cons] at stays below
        omega
      rw [level?_cons_self] at found
      obtain rfl := Option.some.inj found
      exact ⟨_, level?_cons_self, innermost.extends_insert name b⟩

end Scopes

namespace Program

variable {p q : Program} {op : Operation} {level : Nat} {scope : Scope}

/-- The scope at a level is open before each of the operations and after the last. -/
def StaysOpen (level : Nat) (p : Program) : List Operation → Prop
  | [] => level ≤ p.scopes.depth
  | op :: ops => level ≤ p.scopes.depth ∧ StaysOpen level (op.after p) ops

instance decidableStaysOpen (level : Nat) :
    (p : Program) → (ops : List Operation) → Decidable (StaysOpen level p ops)
  | p, [] => inferInstanceAs (Decidable (level ≤ p.scopes.depth))
  | p, op :: ops =>
    have := decidableStaysOpen level (op.after p) ops
    inferInstanceAs (Decidable (level ≤ p.scopes.depth ∧ StaysOpen level (op.after p) ops))

theorem StaysOpen.le_depth {ops : List Operation} (h : StaysOpen level p ops) :
    level ≤ p.scopes.depth := by
  cases ops with
  | nil => exact h
  | cons => exact h.1

theorem Coherent.lt_length (h : p.Coherent) (stays : level ≤ p.scopes.depth) :
    level < p.scopes.frames.length :=
  Nat.lt_of_le_pred h.nested.length_pos stays

theorem Operation.extends_after (h : p.Coherent) (found : p.scopes.level? level = some scope)
    (stays : level ≤ (op.after p).scopes.depth) :
    ∃ t, (op.after p).scopes.level? level = some t ∧ scope.Extends t := by
  cases overwrites : op.overwrites with
  | false => exact (op.shift_after overwrites).extends found ((h.after op).lt_length stays)
  | true =>
    have same := Scopes.map_outline_level? (op.outline_after overwrites h.nested h.typed) level
    rw [found, Option.map_some] at same
    obtain ⟨t, there, outline⟩ := Option.map_eq_some_iff.mp same
    exact ⟨t, there, Scope.extends_of_outline outline⟩

theorem extends_run {ops : List Operation} (h : p.Coherent)
    (found : p.scopes.level? level = some scope) (stays : StaysOpen level p ops) :
    ∃ t, (run p ops).scopes.level? level = some t ∧ scope.Extends t := by
  induction ops generalizing p scope with
  | nil => exact ⟨scope, found, scope.extends_refl⟩
  | cons op ops ih =>
    obtain ⟨t, there, first⟩ := op.extends_after h found stays.2.le_depth
    obtain ⟨u, last, rest⟩ := ih (h.after op) there stays.2
    exact ⟨u, last, first.trans rest⟩

theorem policy_run (p : Program) (ops : List Operation) : (run p ops).policy = p.policy :=
  run_of_after (P := fun q => q.policy = p.policy) rfl
    fun op _ _ same => op.policy_after.trans same

theorem Action.exists_assignScalar {name : String} {value x y : Scalar}
    (found : p.scopes.lookup name = .ok (.scalar x)) (converted : p.convert value x.type = .ok y) :
    ∃ q, (assignScalar name value).outcome p = (.ok (), q) := by
  have bound := Scopes.lookup_eq_ok_iff.mp found
  have replaced := (Scopes.replace_eq_ok_iff (b := .scalar y)).mpr ⟨⟨_, bound⟩, rfl⟩
  unfold assignScalar
  simp only [outcome_bind, outcome_get, outcome_ofExcept, found, converted]
  rw [outcome_rebind, replaced]
  exact ⟨_, rfl⟩

/-- What is declared is fixed while its scope stays open: whatever a program goes on to run,
a scalar keeps its type, an array its element type and shape, a register or an alias what it
refers to. An assignment to a scalar stores the value converted to that type, in the one
binding that the name resolves to, and succeeds if there is such a value. -/
theorem declarations_fixed (policy : Policy) (ops : List Operation) :
    let p := run (initial policy) ops
    (∀ level scope later, p.scopes.level? level = some scope → StaysOpen level p later →
      let q := run p later
      q.policy = p.policy ∧ ∃ t, q.scopes.level? level = some t ∧ t.kind = scope.kind ∧
        ∀ name b, scope.lookup? name = some b →
          ∃ c, t.lookup? name = some c ∧ c.form = b.form) ∧
    (∀ name value q, (Action.assignScalar name value).outcome p = (.ok (), q) →
      ∃ x y, p.scopes.lookup name = .ok (.scalar x) ∧ p.convert value x.type = .ok y ∧
        y.type = x.type ∧ q.policy = p.policy ∧ q.storage = p.storage ∧
        Scopes.Updates name (.scalar x) (.scalar y) p.scopes.frames q.scopes.frames) ∧
    ∀ name value x y, p.scopes.lookup name = .ok (.scalar x) → p.convert value x.type = .ok y →
      ∃ q, (Action.assignScalar name value).outcome p = (.ok (), q) := by
  intro p
  have coherent : p.Coherent := coherent_run policy ops
  refine ⟨fun level scope later found stays => ?_, fun name value q done => ?_,
    fun name value x y => Action.exists_assignScalar⟩
  · obtain ⟨t, there, extended⟩ := extends_run coherent found stays
    have distinct := (coherent.run later).nested.distinct t (Scopes.mem_of_level? there)
    exact ⟨policy_run p later, t, there, extended.kind,
      fun name b bound => extended.lookup? distinct bound⟩
  · have step := Action.step_assignScalar done
    cases step with
    | @assignScalar _ _ x y _ converted bound =>
      obtain ⟨found⟩ := bound
      refine ⟨x, y, ?_, converted, (type_of_convert converted).2, rfl, rfl, ?_⟩
      · exact Scopes.lookup_eq_ok_iff.mpr (Scopes.lookup?_eq_some_iff.mpr found)
      · exact Scopes.updates_replaceIn coherent.nested.distinct found

theorem declarations_fixed_of_hidden :
    let ops : List Operation := [.declareScalar "a" (.angle 4) none]
    let wide : Scalar := .angle ⟨100, 8⟩
    let later : List Operation :=
      [.enterScope, .declareScalar "a" (.uint 8) none, .assignScalar "a" wide, .exitScope,
        .assignScalar "a" wide]
    let p := run (initial ⟨.round, .forbid⟩) ops
    let scope : Scope := ⟨.global, [("a", .scalar (.angle ⟨0, 4⟩))]⟩
    (p.scopes.level? 0 = some scope ∧ StaysOpen 0 p later ∧
      ∃ t c, (run p later).scopes.level? 0 = some t ∧ t.lookup? "a" = some c ∧
        c.form = .scalar (.angle 4)) ∧
    (p.scopes.lookup "a" = .ok (.scalar (.angle ⟨0, 4⟩)) ∧
      p.convert wide (.angle 4) = .ok (.angle ⟨6, 4⟩) ∧
      ∃ q, (Action.assignScalar "a" wide).outcome p = (.ok (), q) ∧
        Scopes.Updates "a" (.scalar (.angle ⟨0, 4⟩)) (.scalar (.angle ⟨6, 4⟩))
          p.scopes.frames q.scopes.frames) := by
  intro ops wide later p scope
  obtain ⟨fixed, assigned, assignable⟩ := declarations_fixed ⟨.round, .forbid⟩ ops
  have found : p.scopes.level? 0 = some scope := by decide +kernel
  have stays : StaysOpen 0 p later := by decide +kernel
  obtain ⟨-, t, there, -, kept⟩ := fixed 0 scope later found stays
  obtain ⟨c, bound, form⟩ := kept "a" _ rfl
  have scalar : p.scopes.lookup "a" = .ok (.scalar (.angle ⟨0, 4⟩)) := by decide +kernel
  have converted : p.convert wide (.angle 4) = .ok (.angle ⟨6, 4⟩) := by decide +kernel
  obtain ⟨q, done⟩ := assignable "a" wide _ _ scalar converted
  obtain ⟨x, y, same, result, -, -, -, updates⟩ := assigned "a" wide q done
  cases scalar.symm.trans same
  cases converted.symm.trans result
  exact ⟨⟨found, stays, t, c, there, bound, form⟩, scalar, converted, q, done, updates⟩

end Program

end QasmValues
