import QasmValues.Program.Action
import QasmValues.Proofs.Outcome

/-! What an action does to the state.
An action is followed from a state to its result and the state that it leaves.
A fault may come late in a declaration, after storage has been taken for it, so
the checks at its beginning must exclude every later fault but the lack of room. -/

namespace QasmValues.Program.Action

variable {α β : Type} {p q r : Program}

/-- The result of an action and the state that it leaves. -/
def outcome (a : Action α) (p : Program) : Except Fault α × Program := ExceptT.run a p

@[simp] theorem outcome_pure (x : α) : (pure x : Action α).outcome p = (.ok x, p) := rfl

@[simp] theorem outcome_throw (e : Fault) : (throw e : Action α).outcome p = (.error e, p) := rfl

@[simp] theorem outcome_get : (get : Action Program).outcome p = (.ok p, p) := rfl

@[simp] theorem outcome_modify (f : Program → Program) :
    (modify f : Action PUnit).outcome p = (.ok (), f p) := rfl

@[simp] theorem outcome_ofExcept (x : Except Fault α) :
    (MonadExcept.ofExcept x : Action α).outcome p = (x, p) := by
  cases x <;> rfl

theorem outcome_bind (a : Action α) (f : α → Action β) :
    (a >>= f).outcome p =
      match a.outcome p with
      | (.ok x, q) => (f x).outcome q
      | (.error e, q) => (.error e, q) := by
  change (match a.outcome p with | (x, q) => ExceptT.bindCont f x q) = _
  rcases a.outcome p with ⟨x, q⟩
  cases x <;> rfl

theorem outcome_bind_eq_ok_iff {a : Action α} {f : α → Action β} {y : β} :
    (a >>= f).outcome p = (.ok y, r) ↔
      ∃ x q, a.outcome p = (.ok x, q) ∧ (f x).outcome q = (.ok y, r) := by
  rw [outcome_bind]
  rcases a.outcome p with ⟨x, q⟩
  cases x
  case error e => simp
  case ok x => exact ⟨fun run => ⟨x, q, rfl, run⟩, fun ⟨_, _, rfl, run⟩ => run⟩

theorem outcome_bind_pure_eq_ok_iff {a : Action α} {g : α → β} {y : β} :
    (a >>= fun x => pure (g x)).outcome p = (.ok y, q) ↔
      ∃ x, a.outcome p = (.ok x, q) ∧ g x = y := by
  rw [outcome_bind_eq_ok_iff]
  constructor
  · rintro ⟨x, t, run, same⟩
    cases same
    exact ⟨x, run, rfl⟩
  · rintro ⟨x, run, rfl⟩
    exact ⟨x, q, run, rfl⟩

theorem outcome_bind_congr {a b : Action α} {f : α → Action β}
    (same : a.outcome p = b.outcome p) : (a >>= f).outcome p = (b >>= f).outcome p := by
  rw [outcome_bind, outcome_bind, same]

theorem outcome_bind_of_ok {a : Action α} {f : α → Action β} {x : α}
    (h : a.outcome p = (.ok x, q)) : (a >>= f).outcome p = (f x).outcome q := by
  rw [outcome_bind, h]

/-! ### Small actions -/

theorem outcome_checkFree (name : String) :
    (checkFree name).outcome p =
      (if isConstant name then .error (.redeclared name) else .ok (), p) := by
  unfold checkFree
  split <;> rfl

theorem outcome_checkGlobal (name : String) :
    (checkGlobal name).outcome p =
      (if p.scopes.isGlobal then .ok () else .error (.notGlobal name), p) := by
  unfold checkGlobal
  rw [outcome_bind, outcome_get]
  dsimp only
  split <;> rfl

@[simp] theorem outcome_setStorage (storage : Storage) :
    (setStorage storage).outcome p = (.ok (), { p with storage }) := rfl

theorem outcome_bindName (name : String) (binding : Binding) :
    (bindName name binding).outcome p =
      match p.scopes.declare name binding with
      | .ok scopes => (.ok (), { p with scopes })
      | .error e => (.error e, p) := by
  unfold bindName
  simp only [outcome_bind, outcome_get, outcome_ofExcept]
  cases p.scopes.declare name binding <;> rfl

theorem outcome_rebind (name : String) (binding : Binding) :
    (rebind name binding).outcome p =
      match p.scopes.replace name binding with
      | .ok scopes => (.ok (), { p with scopes })
      | .error e => (.error e, p) := by
  unfold rebind
  simp only [outcome_bind, outcome_get, outcome_ofExcept]
  cases p.scopes.replace name binding <;> rfl

/-! ### Faults that leave the state -/

/-- From this state a fault of the action leaves the state as it was. -/
def Atomic (a : Action α) (p : Program) : Prop := ∀ e q, a.outcome p = (.error e, q) → q = p

def Readonly (a : Action α) : Prop := ∀ p, (a.outcome p).2 = p

theorem readonly_get : Readonly (get : Action Program) := fun _ => rfl

theorem readonly_ofExcept (x : Except Fault α) :
    Readonly (MonadExcept.ofExcept x : Action α) := fun p => by
  rw [outcome_ofExcept]

theorem readonly_checkFree (name : String) : Readonly (checkFree name) := fun p => by
  rw [outcome_checkFree]

theorem readonly_checkGlobal (name : String) : Readonly (checkGlobal name) := fun p => by
  rw [outcome_checkGlobal]

theorem Readonly.eq {a : Action α} (h : Readonly a) {x : Except Fault α}
    (run : a.outcome p = (x, q)) : q = p := by
  rw [← h p, run]

theorem Readonly.atomic_bind {a : Action α} {f : α → Action β} (h : Readonly a)
    (rest : ∀ x, a.outcome p = (.ok x, p) → Atomic (f x) p) : Atomic (a >>= f) p := by
  intro e q run
  rw [outcome_bind] at run
  rcases outcome : a.outcome p with ⟨x | x, t⟩
  · rw [outcome] at run
    cases run
    exact h.eq outcome
  · rw [outcome] at run
    obtain rfl := h.eq outcome
    exact rest x outcome e q run

theorem atomic_throw (e : Fault) : Atomic (throw e : Action α) p := by
  intro _ q run
  cases run
  rfl

theorem atomic_modify (f : Program → Program) : Atomic (modify f) p := by
  intro e q failed
  rw [outcome_modify] at failed
  cases failed

theorem atomic_bindName (name : String) (binding : Binding) :
    Atomic (bindName name binding) p := by
  intro e q run
  rw [outcome_bindName] at run
  split at run
  · cases run
  · cases run
    rfl

theorem atomic_rebind (name : String) (binding : Binding) : Atomic (rebind name binding) p := by
  intro e q run
  rw [outcome_rebind] at run
  split at run
  · cases run
  · cases run
    rfl

theorem Atomic.bind_pure {a : Action α} (h : Atomic a p) (g : α → β) :
    Atomic (a >>= fun x => pure (g x)) p := by
  intro e q run
  rw [outcome_bind] at run
  rcases outcome : a.outcome p with ⟨x | x, t⟩
  · rw [outcome] at run
    cases run
    exact h _ _ outcome
  · rw [outcome] at run
    cases run

end QasmValues.Program.Action
